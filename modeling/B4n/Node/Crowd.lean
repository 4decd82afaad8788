import B4n.Node.Sample

/-!
# More validators than numbers

A node's number is its position in the validator list, cut to 32 bits.  With
more than `2 ^ 32` validators the last ones have the numbers of the first.
These sample configurations are too large to be evaluated; what is needed of
them follows from their definition.
-/

namespace B4n.Blockchain.Sample

open B4n.Lib

/-- The seed that is `i` in big-endian bytes. -/
def numbered (i : Nat) : Seed := ⟨beBytes 32 i, length_beBytes 32 i⟩

theorem toList_numbered (i : Nat) : (numbered i).toList = beBytes 32 i := by
  unfold numbered
  exact List.Vector.toList_mk _ _

theorem numbered_inj {i j : Nat} (hi : i < 256 ^ 32) (hj : j < 256 ^ 32)
    (h : numbered i = numbered j) : i = j := by
  have hbytes := congrArg List.Vector.toList h
  rw [toList_numbered, toList_numbered] at hbytes
  exact beBytes_inj hi hj hbytes

/-- As many validators as given and one more. -/
def crowd (n : Nat) : PoAConsensusConfig where
  validators := (List.range (n + 1)).map fun i => ⟨numbered i⟩
  slotDurationMs := 1000
  timeoutMs := 3000
  maxTrxPerBlock := 1

variable {n : Nat}

theorem length_crowd : (crowd n).validators.length = n + 1 := by
  rw [crowd, List.length_map, List.length_range]

theorem getElem_crowd {i : Nat} (hi : i < (crowd n).validators.length) :
    (crowd n).validators[i] = ⟨numbered i⟩ := by
  simp [crowd]

theorem crowd_ok (hn : n < 2 ^ 64) : (crowd n).validateConfig = true := by
  refine PoAConsensusConfig.validateConfig_of_nodup ?_ ?_
  · intro hnil
    have hlen := length_crowd (n := n)
    rw [hnil, List.length_nil] at hlen
    omega
  · have hmap : (crowd n).validators.map Validator.pubkey =
        (List.range (n + 1)).map numbered := by
      rw [crowd, List.map_map]
      rfl
    rw [hmap]
    refine List.Nodup.map_on ?_ List.nodup_range
    intro i hi j hj heq
    rw [List.mem_range] at hi hj
    exact numbered_inj (by omega) (by omega) heq

/-- The number of the last validator is its position, cut to 32 bits. -/
theorem crowd_nodeId (hn : n < 2 ^ 64) :
    (NodeIdentity.new (numbered n) (crowd n)).nodeId =
      some (UInt32.ofNat n) := by
  have hfind : (crowd n).validators.findIdx?
      (fun v => v.pubkey = Primitives.verifyingKey (numbered n)) = some n := by
    rw [List.findIdx?_eq_some_iff_getElem]
    have hlast : n < (crowd n).validators.length := by rw [length_crowd]; omega
    refine ⟨hlast, ?_, fun j hj => ?_⟩
    · rw [getElem_crowd hlast]
      exact decide_eq_true rfl
    · rw [getElem_crowd (hj.trans hlast)]
      intro heq
      have hsame := numbered_inj (by omega) (by omega) (of_decide_eq_true heq)
      omega
  unfold NodeIdentity.new
  dsimp only
  rw [hfind, Option.map_some]

/-- Who is expected in a slot. -/
theorem crowd_expected {consensus : PoAConsensus}
    (hconfig : consensus.config = crowd n) {blockIndex round : UInt64}
    {i : Nat} (hindex : consensus.proposerIndex blockIndex round = i) :
    consensus.expectedProposer blockIndex round =
      (UInt32.ofNat i, ⟨numbered i⟩) := by
  have hlt := consensus.proposerIndex_lt blockIndex round
  have hget := consensus.getElem?_proposerIndex blockIndex round
  rw [hindex, hconfig] at hlt
  rw [hindex, hconfig, List.getElem?_eq_getElem hlt, getElem_crowd hlt,
    Option.some.injEq] at hget
  apply Prod.ext
  · exact congrArg UInt32.ofNat hindex
  · exact hget.symm

/-- On the turn of another validator that has its number, the last one signs a
candidate that fails its own validation. -/
theorem crowd_refused {env : Env} {node : Node} (hn : n < 2 ^ 64)
    (hidentity : node.identity = NodeIdentity.new (numbered n) (crowd n))
    (hconfig : node.consensus.config = crowd n)
    (hverifier : node.consensus.verifier = verifier)
    (hturn : Node.Turn env node)
    (hother : (node.advanceRound env).consensus.proposerIndex
      (node.chain.getHeight + 1)
      (node.advanceRound env).consensus.state.currentRound ≠ n)
    (htxs : node.nextTrxs ≠ []) :
    ∃ candidate, candidate.header.index = node.chain.getHeight + 1 ∧
      node.onTick env = ⟨node.drained env, [.signed candidate]⟩ := by
  have hkey := NodeIdentity.privateKey_of_nodeId (crowd_nodeId hn)
  obtain ⟨candidate, hbuild⟩ : ∃ candidate,
      (node.drained env).buildBlock env node.nextTrxs = .ok candidate := by
    apply Node.buildBlock_of_validator
    · rw [Node.drained_identity]
      exact hturn.nodeId_eq
    · rw [Node.drained_identity, hidentity]
      exact hkey
  have hbuilt := Node.buildBlock_built hbuild
  have hindex : candidate.header.index = node.chain.getHeight + 1 := by
    rw [hbuilt.index_eq, Node.drained_chain]
  have hround : candidate.header.round =
      (node.advanceRound env).consensus.state.currentRound := hbuilt.round_eq
  refine ⟨candidate, hindex, ?_⟩
  rw [Node.onTick_of_turn hturn htxs]
  apply Node.proposeBlock_of_refused hbuild
  apply Bool.eq_false_iff.mpr
  intro hok
  have hvalid := (PoAConsensus.accepts_iff _ _ _).mp hok
  obtain ⟨signingKey, hprivate, hsignature⟩ := hbuilt.signature_eq
  rw [Node.drained_identity, hidentity, hkey, Option.some.injEq] at hprivate
  -- the signature is checked against the key of the other validator
  have hsigned := hvalid.signature_ok
  have hexpected := crowd_expected
    (by rw [Node.drained_config, hconfig] :
      (node.drained env).consensus.config = crowd n)
    (rfl : (node.drained env).consensus.proposerIndex candidate.header.index
      candidate.header.round = _)
  rw [hexpected, hsignature, Node.drained_verifier, hverifier] at hsigned
  have hnumbered := signaturesUnforgeable _ _ _ _ hsigned
  rw [← hprivate] at hnumbered
  have hlt := (node.drained env).consensus.proposerIndex_lt
    candidate.header.index candidate.header.round
  rw [Node.drained_config, hconfig, length_crowd] at hlt
  have hsame := numbered_inj (by omega) (by omega) hnumbered
  rw [hindex, hround] at hsame
  exact hother hsame.symm

end B4n.Blockchain.Sample
