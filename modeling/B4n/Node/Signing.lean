import B4n.Node.Chain
import B4n.Node.Crowd

/-!
# What a node signs

A block is signed before it is validated, and a candidate that fails its own
validation is dropped with its transactions.  This module shows that this does
not happen as long as the 32-bit number of the node is its own, and that then
the heights of everything a node signs increase.

With more than `2 ^ 32` validators two of them can share a number, and the one
that is not expected signs candidates that nobody accepts, again and again for
the same height.

## Main results

* `candidate_accepted` — a candidate built on the node's turn is valid.
* `run_signedHeights_increasing` — the heights of the signed blocks of a run
  are strictly increasing.
-/

namespace B4n

open Lib Blockchain Transport

/-- The height of a signed block. -/
def Effect.signedHeight : Effect → Option Nat
  | .signed block => some block.header.index.toNat
  | .send _ _ _ => none

/-- The heights of the signed blocks, in the order of signing. -/
def signedHeights (effects : List Effect) : List Nat :=
  effects.filterMap Effect.signedHeight

/-- The number of the key in the validator list is the number of no other
entry. -/
def OwnNumber (validators : List Validator) (pubkey : PubkeyType) : Prop :=
  ∀ i j : Nat, validators[i]? = some ⟨pubkey⟩ → j < validators.length →
    UInt32.ofNat j = UInt32.ofNat i → j = i

/-- Up to `2 ^ 32` validators have their own numbers. -/
theorem ownNumber_of_length_le {validators : List Validator}
    (hsmall : validators.length ≤ 2 ^ 32) (pubkey : PubkeyType) :
    OwnNumber validators pubkey := by
  intro i j hi hj hnumber
  have hi' : i < validators.length := (List.getElem?_eq_some_iff.mp hi).1
  have hmod := congrArg UInt32.toNat hnumber
  rw [UInt32.toNat_ofNat', UInt32.toNat_ofNat',
    Nat.mod_eq_of_lt (by omega), Nat.mod_eq_of_lt (by omega)] at hmod
  exact hmod

variable [Primitives]

namespace Node

/-! ## Effects of messages -/

omit [Primitives] in
theorem signedHeights_eq_nil {effects : List Effect}
    (h : ∀ b, Effect.signed b ∉ effects) : signedHeights effects = [] := by
  refine List.filterMap_eq_nil_iff.mpr fun e he => ?_
  cases e with
  | send peerId sender msg => rfl
  | signed b => exact absurd he (h b)

omit [Primitives] in
theorem signed_notMem_gossip (env : Env) (node : Node) (msg : ProtocolMessage)
    (b : Block) : Effect.signed b ∉ node.gossip env msg := by
  intro hmem
  obtain ⟨entry, -, heq⟩ := List.mem_map.mp hmem
  cases heq

theorem Intake.signed_notMem {env : Env} {incoming : List Block}
    {node last : Node} {effects : List Effect}
    (hintake : Intake env incoming node last effects) (b : Block) :
    Effect.signed b ∉ effects := by
  induction hintake with
  | refl node => simp
  | head hstep _ ih =>
      rw [List.mem_append, not_or]
      refine ⟨?_, ih⟩
      cases hstep with
      | mark c hc hnew => simp
      | receive c hc hok => exact signed_notMem_gossip _ _ _ _
      | connect vec pos hvec hok => exact signed_notMem_gossip _ _ _ _
      | reorder orphans hsame hheld => simp
      | orphan c hc hlt => simp
      | sync pid start hpid =>
          intro hmem
          obtain ⟨sender, -, heq⟩ := mem_startSync_effects hmem
          cases heq

/-- Only ticks sign. -/
theorem signed_notMem_onMessage (env : Env) (node : Node) (m : NodeMessage)
    (b : Block) : Effect.signed b ∉ (node.onMessage env m).effects := by
  obtain ⟨mid, effects, rest, hintake, -, heffects, hrest⟩ :=
    node.onMessage_spec env m
  rw [heffects, List.mem_append, not_or]
  exact ⟨hintake.signed_notMem b, fun hmem => hrest _ hmem⟩

/-! ## Candidates -/

/-- A candidate built on the node's turn passes the validation that follows, if
the node's number is its own and the height does not wrap around. -/
theorem candidate_accepted {env : Env} {node : Node} {seed : Seed}
    {txs : List Transaction} {candidate : Block}
    (hidentity : node.identity = NodeIdentity.new seed node.consensus.config)
    (hverify : SignaturesVerify node.consensus.verifier)
    (hown : OwnNumber node.consensus.config.validators
      (Primitives.verifyingKey seed))
    (hheight : node.chain.getHeight.toNat + 1 < 2 ^ 64)
    (hturn : Turn env node)
    (hbuild : (node.drained env).buildBlock env txs = .ok candidate) :
    node.consensus.accepts node.chain.last candidate = true := by
  have hbuilt := buildBlock_built hbuild
  have hindex : candidate.header.index = node.chain.getHeight + 1 := by
    rw [hbuilt.index_eq, drained_chain]
  have hround : candidate.header.round =
      (node.advanceRound env).consensus.state.currentRound := hbuilt.round_eq
  -- the slot of the candidate is the one the turn was decided on
  have hverifier := node.drained_verifier env
  have hslot : (node.drained env).consensus.proposerIndex
      candidate.header.index candidate.header.round <
        node.consensus.config.validators.length := by
    have hlt := (node.drained env).consensus.proposerIndex_lt
      candidate.header.index candidate.header.round
    rwa [drained_config] at hlt
  have hnodeId := hturn.nodeId_eq
  rw [← hindex, ← hround] at hnodeId
  have hproposerId := hbuilt.proposerId_eq
  rw [drained_identity] at hproposerId
  rw [hproposerId, Option.some.injEq] at hnodeId
  rw [hidentity] at hproposerId
  obtain ⟨i, hi, hnumber⟩ := NodeIdentity.validator_of_nodeId hproposerId
  have hsame : (node.drained env).consensus.proposerIndex
      candidate.header.index candidate.header.round = i :=
    hown i _ hi hslot (hnodeId.symm.trans hnumber)
  have hkey : ((node.drained env).consensus.expectedProposer
      candidate.header.index candidate.header.round).2 =
        ⟨Primitives.verifyingKey seed⟩ := by
    have hget := (node.drained env).consensus.getElem?_proposerIndex
      candidate.header.index candidate.header.round
    rw [hsame, drained_config, hi] at hget
    exact (Option.some.inj hget).symm
  obtain ⟨signingKey, hprivate, hsignature⟩ := hbuilt.signature_eq
  rw [drained_identity, hidentity] at hprivate
  rw [← accepts_drained env, PoAConsensus.accepts_iff]
  refine ⟨⟨?_, hindex, ?_, ?_⟩, hnodeId, ?_⟩
  · rw [hindex]
    intro hzero
    have hnat := congrArg UInt64.toNat hzero
    rw [UInt64.toNat_add] at hnat
    have hmod := Nat.mod_eq_of_lt hheight
    simp only [UInt64.toNat_one, UInt64.toNat_zero] at hnat
    omega
  · rw [hbuilt.previousHash_eq, drained_chain]
  · rw [hbuilt.merkleRoot_eq, hbuilt.transactions_eq]
  · rw [hkey, hsignature, privateKey_eq hprivate, hverifier]
    exact hverify seed _

/-! ## Runs -/

/-- What a run keeps of a node that signs in order: its key, its rules, its
linked chain, and that everything signed is at most at the height of the
chain. -/
structure SignsInOrder (seed : Seed) (config : PoAConsensusConfig)
    (verifier : Verifier) (node : Node) (effects : List Effect) : Prop where
  identity_eq : node.identity = NodeIdentity.new seed config
  config_eq : node.consensus.config = config
  verifier_eq : node.consensus.verifier = verifier
  linked : Linked node
  length_le : node.chain.blocks.length ≤ MAX_VEC_LEN
  increasing : (signedHeights effects).Pairwise (· < ·)
  signed_le : ∀ height ∈ signedHeights effects,
    height ≤ node.chain.getHeight.toNat

omit [Primitives] in
theorem signedHeights_append (effects more : List Effect) :
    signedHeights (effects ++ more) =
      signedHeights effects ++ signedHeights more :=
  List.filterMap_append

/-- The height of linked blocks grows with every advance. -/
theorem height_le_of_advance {node last : Node} {added : List Block}
    (hnode : Linked node) (hadvance : Advance node last added) :
    node.chain.getHeight.toNat ≤ last.chain.getHeight.toNat := by
  rw [hnode.height_eq, (hnode.advance hadvance).height_eq, hadvance.blocks_eq,
    List.length_append]
  omega

/-- A turn that signs nothing keeps the order. -/
theorem SignsInOrder.silent {seed : Seed} {config : PoAConsensusConfig}
    {verifier : Verifier} {node last : Node} {effects more : List Effect}
    {added : List Block} (h : SignsInOrder seed config verifier node effects)
    (hadvance : Advance node last added)
    (hlength : last.chain.blocks.length ≤ MAX_VEC_LEN)
    (hsilent : ∀ b, Effect.signed b ∉ more) :
    SignsInOrder seed config verifier last (effects ++ more) where
  identity_eq := hadvance.identity_eq.trans h.identity_eq
  config_eq := hadvance.config_eq.trans h.config_eq
  verifier_eq := hadvance.verifier_eq.trans h.verifier_eq
  linked := h.linked.advance hadvance
  length_le := hlength
  increasing := by
    rw [signedHeights_append, signedHeights_eq_nil hsilent, List.append_nil]
    exact h.increasing
  signed_le := by
    rw [signedHeights_append, signedHeights_eq_nil hsilent, List.append_nil]
    intro height hmem
    exact (h.signed_le height hmem).trans
      (height_le_of_advance h.linked hadvance)

/-- A turn that signs the next block and appends it keeps the order. -/
theorem SignsInOrder.sign {seed : Seed} {config : PoAConsensusConfig}
    {verifier : Verifier} {node last : Node} {effects more : List Effect}
    {candidate : Block} (h : SignsInOrder seed config verifier node effects)
    (hadvance : Advance node last [candidate])
    (hlength : last.chain.blocks.length ≤ MAX_VEC_LEN)
    (hmore : ∀ b, Effect.signed b ∉ more) :
    SignsInOrder seed config verifier last
      (effects ++ .signed candidate :: more) := by
  have hheights : signedHeights (effects ++ .signed candidate :: more) =
      signedHeights effects ++ [candidate.header.index.toNat] := by
    rw [signedHeights_append]
    unfold signedHeights
    rw [List.filterMap_cons]
    exact congrArg (fun rest => _ ++ _ :: rest) (signedHeights_eq_nil hmore)
  have htip : last.chain.last = candidate := by
    rw [hadvance.last_eq]
    rfl
  have hlast := h.linked.advance hadvance
  have hindex : candidate.header.index.toNat =
      node.chain.getHeight.toNat + 1 := by
    have hnode := h.linked.height_eq
    have htop := hlast.height_eq
    have hpos := node.chain.length_pos
    rw [hadvance.blocks_eq, List.length_append, List.length_singleton,
      BlockChain.getHeight, htip] at htop
    omega
  refine ⟨hadvance.identity_eq.trans h.identity_eq,
    hadvance.config_eq.trans h.config_eq,
    hadvance.verifier_eq.trans h.verifier_eq, hlast, hlength, ?_, ?_⟩
  · rw [hheights, List.pairwise_append]
    refine ⟨h.increasing, List.pairwise_singleton _ _, ?_⟩
    intro height hmem other hother
    have hle := h.signed_le height hmem
    rw [List.mem_singleton] at hother
    omega
  · rw [hheights, BlockChain.getHeight, htip]
    intro height hmem
    rcases List.mem_append.mp hmem with hold | hnew
    · have hle := h.signed_le height hold
      omega
    · exact (List.mem_singleton.mp hnew).le

/-- One tick keeps the order. -/
theorem SignsInOrder.onTick {env : Env} {seed : Seed}
    {config : PoAConsensusConfig} {verifier : Verifier} {node : Node}
    {effects : List Effect} (hverify : SignaturesVerify verifier)
    (hown : OwnNumber config.validators (Primitives.verifyingKey seed))
    (h : SignsInOrder seed config verifier node effects)
    (hlength : (node.onTick env).node.chain.blocks.length ≤ MAX_VEC_LEN) :
    SignsInOrder seed config verifier (node.onTick env).node
      (effects ++ (node.onTick env).effects) := by
  have hcase := node.onTick_cases env
  have hadvance := node.onTick_advance env
  generalize node.onTick env = reaction at hcase hadvance hlength ⊢
  obtain ⟨added, hadded⟩ := hadvance
  cases hcase with
  | waited consensus hconsensus hno => exact h.silent hadded hlength (by simp)
  | keyless hturn htxs hbuild => exact h.silent hadded hlength (by simp)
  | refused candidate hturn htxs hbuild hbad =>
      have hheight : node.chain.getHeight.toNat + 1 < 2 ^ 64 := by
        have hle := h.length_le
        rw [h.linked.height_eq]
        unfold MAX_VEC_LEN at hle
        omega
      have hok := candidate_accepted
        (h.identity_eq.trans (by rw [h.config_eq]))
        (h.verifier_eq ▸ hverify) (by rw [h.config_eq]; exact hown) hheight
        hturn hbuild
      rw [hok] at hbad
      cases hbad
  | proposed candidate hturn htxs hbuild hok =>
      exact h.sign (proposed_advance env hok) hlength
        (signed_notMem_gossip env node (.block candidate))

/-- In every run of a node whose number is its own, the heights of the blocks
it signs are strictly increasing. -/
theorem run_signedHeights_increasing {netId : UInt32} {seed : Seed}
    {chainId : UInt64} {consensus : PoAConsensus} {last : Node}
    {inputs : List (Env × Input)} {effects : List Effect}
    (hverify : SignaturesVerify consensus.verifier)
    (hown : OwnNumber consensus.config.validators
      (Primitives.verifyingKey seed))
    (hrun : Run Node.next
      (Node.new netId seed (BlockChain.new chainId) consensus) inputs last
      effects) :
    (signedHeights effects).Pairwise (· < ·) := by
  have horder : SignsInOrder seed consensus.config consensus.verifier last
      effects := by
    induction hrun with
    | start =>
        have hone : 1 ≤ MAX_VEC_LEN := by decide
        exact ⟨rfl, rfl, rfl, new_linked _ _ _ _, hone, List.Pairwise.nil,
          by simp [signedHeights]⟩
    | step hprev hnext ih =>
        rename_i inputs mid outputs i last out
        obtain ⟨env, input⟩ := i
        obtain ⟨rfl, rfl, hlength⟩ := next_eq_some hnext
        cases input with
        | message m =>
            obtain ⟨added, hadded⟩ := onMessage_advance env _ m
            exact ih.silent hadded hlength
              (signed_notMem_onMessage env _ m)
        | tick => exact ih.onTick hverify hown hlength
  exact horder.increasing

end Node

end B4n

namespace B4n.Blockchain.Sample

open B4n.Lib

/-! ## More validators than numbers -/

variable {n : Nat}

/-- What the two ticks below have in common: the last validator, on the genesis
block, in round 0. -/
private structure LastOfCrowd (hn : n = 2 ^ 32) (node : Node) : Prop where
  identity_eq : node.identity = NodeIdentity.new (numbered n) (crowd n)
  consensus_eq : node.consensus = consensus (crowd n) (crowd_ok (by omega))
  chain_eq : node.chain = BlockChain.new 1
  not_syncing : node.isSyncing = false

private theorem LastOfCrowd.advanceRound {hn : n = 2 ^ 32} {node : Node}
    (h : LastOfCrowd hn node)
    (ms : Nat) (hms : ms < 3000) : node.advanceRound (env ms) = node := by
  unfold Node.advanceRound Node.elapsed Node.fromMillis
  rw [h.consensus_eq]
  refine if_neg ?_
  simp only [consensus, crowd, env, PoAConsensusState.new,
    UInt64.reduceToNat]
  omega

private theorem LastOfCrowd.expected (hn : n = 2 ^ 32) :
    (consensus (crowd n) (crowd_ok (by omega))).expectedProposer 1 0 =
      (0, ⟨numbered 0⟩) :=
  crowd_expected rfl (Nat.zero_mod _)

/-- The last validator has the number of the first. -/
private theorem LastOfCrowd.nodeId (hn : n = 2 ^ 32) :
    (NodeIdentity.new (numbered n) (crowd n)).nodeId = some 0 := by
  rw [crowd_nodeId (by omega), hn]
  rfl

private theorem LastOfCrowd.turn {hn : n = 2 ^ 32} {node : Node}
    (h : LastOfCrowd hn node)
    (ms : Nat) (hslot : 1000 ≤ ms) (hms : ms < 3000) :
    Node.Turn (env ms) node where
  not_syncing := h.not_syncing
  slot_over := by
    unfold Node.elapsed Node.fromMillis
    rw [h.consensus_eq]
    simp only [consensus, crowd, env, PoAConsensusState.new,
      UInt64.reduceToNat]
    omega
  nodeId_eq := by
    rw [h.advanceRound ms hms, h.identity_eq, LastOfCrowd.nodeId hn, h.chain_eq,
      h.consensus_eq]
    exact congrArg (some ·.1) (LastOfCrowd.expected hn).symm

/-- It signs a block of height 1, which fails its own validation. -/
private theorem LastOfCrowd.onTick {hn : n = 2 ^ 32} {node : Node}
    (h : LastOfCrowd hn node)
    (ms : Nat) (hslot : 1000 ≤ ms) (hms : ms < 3000)
    (htxs : node.nextTrxs ≠ []) :
    ∃ candidate, candidate.header.index = 1 ∧
      node.onTick (env ms) = ⟨node.drained (env ms), [.signed candidate]⟩ := by
  have hindex : ((node.advanceRound (env ms)).consensus.proposerIndex
      (node.chain.getHeight + 1)
      (node.advanceRound (env ms)).consensus.state.currentRound) = 0 := by
    rw [h.advanceRound ms hms, h.chain_eq, h.consensus_eq]
    exact Nat.zero_mod _
  obtain ⟨candidate, hcandidate, htick⟩ := crowd_refused (by omega)
    h.identity_eq (by rw [h.consensus_eq]; rfl) (by rw [h.consensus_eq]; rfl)
    (h.turn ms hslot hms) (by rw [hindex]; omega) htxs
  refine ⟨candidate, ?_, htick⟩
  rw [hcandidate, h.chain_eq]
  rfl

private theorem LastOfCrowd.acceptTrx {hn : n = 2 ^ 32} {node : Node}
    (h : LastOfCrowd hn node) (ms : Nat) (trx : Transaction) :
    LastOfCrowd hn (node.acceptTrx (env ms) trx).node ∧
      (node.acceptTrx (env ms) trx).node.mempool =
        (node.mempool.push trx).2 := by
  have hcore := Node.acceptTrx_core (env ms) node trx
  have hpool := node.acceptTrx_pool (env ms) trx
  have hsync : (node.acceptTrx (env ms) trx).node.isSyncing =
      node.isSyncing := by
    unfold Node.acceptTrx
    dsimp only
    split <;> rfl
  exact ⟨⟨hcore.identity.trans h.identity_eq,
    hcore.consensus.trans h.consensus_eq, hcore.chain.trans h.chain_eq,
    hsync.trans h.not_syncing⟩, hpool⟩

private theorem LastOfCrowd.drained {hn : n = 2 ^ 32} {node : Node}
    (h : LastOfCrowd hn node) (ms : Nat) (hms : ms < 3000) :
    LastOfCrowd hn (node.drained (env ms)) ∧
      (node.drained (env ms)).mempool = (node.mempool.popMany 1).2 := by
  unfold Node.drained
  rw [h.advanceRound ms hms, h.consensus_eq]
  exact ⟨⟨h.identity_eq, h.consensus_eq, h.chain_eq, h.not_syncing⟩, rfl⟩

private theorem LastOfCrowd.nextTrxs {hn : n = 2 ^ 32} {node : Node}
    (h : LastOfCrowd hn node) :
    node.nextTrxs = (node.mempool.popMany 1).1 := by
  unfold Node.nextTrxs
  rw [h.consensus_eq]
  rfl

private theorem LastOfCrowd.length_le {hn : n = 2 ^ 32} {node : Node}
    (h : LastOfCrowd hn node) :
    node.chain.blocks.length ≤ MAX_VEC_LEN := by
  rw [h.chain_eq]
  decide +kernel

private theorem LastOfCrowd.next_trx {hn : n = 2 ^ 32} {node : Node}
    (h : LastOfCrowd hn node) (ms : Nat) (trx : Transaction) :
    ∃ effects, node.next (env ms, .message (.localTrx trx)) =
      some ((node.acceptTrx (env ms) trx).node, effects) ∧
        signedHeights effects = [] := by
  refine ⟨_, Node.next_of_length_le (h.acceptTrx ms trx).1.length_le,
    Node.signedHeights_eq_nil fun b hb => ?_⟩
  obtain ⟨peerId, sender, heq⟩ := Node.mem_acceptTrx_effects hb
  cases heq

private theorem LastOfCrowd.next_tick {hn : n = 2 ^ 32} {node : Node}
    (h : LastOfCrowd hn node) (ms : Nat) (hslot : 1000 ≤ ms) (hms : ms < 3000)
    (htxs : node.nextTrxs ≠ []) :
    ∃ effects, node.next (env ms, .tick) =
      some (node.drained (env ms), effects) ∧ signedHeights effects = [1] := by
  obtain ⟨candidate, hindex, htick⟩ := h.onTick ms hslot hms htxs
  have hstep : node.step (env ms) .tick =
      ⟨node.drained (env ms), [.signed candidate]⟩ := htick
  refine ⟨[.signed candidate], ?_, ?_⟩
  · rw [Node.next_of_length_le (by rw [hstep]; exact (h.drained ms hms).1.length_le),
      hstep]
  · simp [signedHeights, Effect.signedHeight, hindex]

/-- Two transactions and two ticks in the first round. -/
private def twoTicks : List (Env × Input) :=
  [(env 10, .message (.localTrx (trx 1 "coffee"))),
    (env 20, .message (.localTrx (trx 2 "tea"))), (env 1000, .tick),
    (env 2000, .tick)]

/-- The last of `2 ^ 32 + 1` validators signs a block of height 1 on each of
the two ticks. -/
private theorem twoTicks_signs (hn : n = 2 ^ 32) :
    ∃ last effects, Run Node.next (Node.new 1 (numbered n) (BlockChain.new 1)
      (consensus (crowd n) (crowd_ok (by omega)))) twoTicks last effects ∧
        signedHeights effects = [1, 1] := by
  have h₀ : LastOfCrowd hn (Node.new 1 (numbered n) (BlockChain.new 1)
      (consensus (crowd n) (crowd_ok (by omega)))) := ⟨rfl, rfl, rfl, rfl⟩
  have hempty : (Node.new 1 (numbered n) (BlockChain.new 1)
      (consensus (crowd n) (crowd_ok (by omega)))).mempool = MemPool.new := rfl
  generalize Node.new 1 (numbered n) (BlockChain.new 1)
    (consensus (crowd n) (crowd_ok (by omega))) = init at h₀ hempty ⊢
  obtain ⟨h₁, hpool₁⟩ := h₀.acceptTrx 10 (trx 1 "coffee")
  obtain ⟨h₂, hpool₂⟩ := h₁.acceptTrx 20 (trx 2 "tea")
  obtain ⟨h₃, hpool₃⟩ := h₂.drained 1000 (by omega)
  rw [hpool₁, hempty] at hpool₂
  rw [hpool₂] at hpool₃
  obtain ⟨out₁, hnext₁, hout₁⟩ := h₀.next_trx 10 (trx 1 "coffee")
  obtain ⟨out₂, hnext₂, hout₂⟩ := h₁.next_trx 20 (trx 2 "tea")
  obtain ⟨out₃, hnext₃, hout₃⟩ := h₂.next_tick 1000 (by omega)
    (by omega) (by rw [h₂.nextTrxs, hpool₂]; decide +kernel)
  obtain ⟨out₄, hnext₄, hout₄⟩ := h₃.next_tick 2000 (by omega)
    (by omega) (by rw [h₃.nextTrxs, hpool₃]; decide +kernel)
  refine ⟨_, _, (((Run.start.step hnext₁).step hnext₂).step hnext₃).step hnext₄,
    ?_⟩
  simp only [Node.signedHeights_append, hout₁, hout₂, hout₃, hout₄]
  rfl

/-- A validator whose number is not its own signs two blocks of one height. -/
theorem crowd_equivocates :
    ∃ (seed : Seed) (consensus : PoAConsensus) (inputs : List (Env × Input))
      (last : Node) (effects : List Effect),
      SignaturesVerify consensus.verifier ∧
      Run Node.next (Node.new 1 seed (BlockChain.new 1) consensus) inputs last
        effects ∧
      signedHeights effects = [1, 1] ∧
      ¬ (signedHeights effects).Pairwise (· < ·) := by
  obtain ⟨last, effects, hrun, htwice⟩ := twoTicks_signs rfl
  refine ⟨_, _, _, _, _, signaturesVerify, hrun, htwice, ?_⟩
  rw [htwice]
  decide

/-! ## A validator of its own -/

/-- Two proposals. -/
private def twoProposals : List (Env × Input) :=
  [(env 10, .message (.localTrx (trx 1 "coffee"))), (env 1000, .tick),
    (env 1500, .message (.localTrx (trx 2 "tea"))), (env 2000, .tick)]

private theorem twoProposals_run : ∃ last effects, Run Node.next
    (node 1 1 (config [1] 8) config_one_ok) twoProposals last effects ∧
      signedHeights effects = [1, 2] :=
  exists_run (by decide +kernel)

theorem run_signedHeights_increasing_twoProposals :
    ∃ last effects, Run Node.next
      (node 1 1 (config [1] 8) config_one_ok) twoProposals last effects ∧
      signedHeights effects = [1, 2] ∧
      (signedHeights effects).Pairwise (· < ·) := by
  obtain ⟨last, effects, hrun, hheights⟩ := twoProposals_run
  refine ⟨last, effects, hrun, hheights, ?_⟩
  exact Node.run_signedHeights_increasing signaturesVerify
    (ownNumber_of_length_le (by decide) _) hrun

end B4n.Blockchain.Sample
