import B4n.Network.Sample
import B4n.Blockchain.Linked

/-!
# Agreement

There is no fork choice: a node keeps the first valid block it gets for a
height.  When a validator does not hear of the block of a round in time, it
proposes another one for the next round, and nodes that appended different ones
never agree again.

The rotation still leaves one node for every height and round, and that node
has at most one block there.  So the round of the block at a height decides
which block it is, and with it all blocks below.

## Main results

* `next_sound` — every block that circulates is on the chain of the node whose
  slot it was made for.
* `run_agreement` — two chains have the same block at a height if and only if
  the two blocks carry the same round, and then they agree up to there.
-/

namespace B4n

open Lib Blockchain Transport

variable [Primitives]

namespace Setup

variable {ι : Type} {setup : Setup ι} {net last : Network ι}

/-- The validator whose slot a block is made for. -/
def slotOwner (setup : Setup ι) (b : Block) : Option Validator :=
  setup.validators[(b.header.index - 1 + b.header.round).toNat %
    setup.validators.length]?

/-- The block is on the node's chain, at its height, and the slot is the
node's. -/
structure Owns (setup : Setup ι) (net : Network ι) (i : ι) (b : Block) :
    Prop where
  placed : (net.nodes i).chain.blocks[b.header.index.toNat]? = some b
  slot_eq :
    setup.slotOwner b = some ⟨Primitives.verifyingKey (setup.seed i)⟩

/-- What every reachable state of a network has. -/
structure Sound (setup : Setup ι) (net : Network ι) : Prop where
  linked : ∀ i, Node.Linked (net.nodes i)
  rules : ∀ i, Node.SameRules (setup.startNode i) (net.nodes i)
  owned : ∀ b, net.Circulates b →
    b = Block.newGenesis BlockHeader.newGenesis ∨ ∃ i, setup.Owns net i b

/-! ## Steps -/

theorem start_sound (setup : Setup ι) : setup.Sound setup.start where
  linked := fun i => Node.new_linked _ _ _ _
  rules := fun i => ⟨rfl, rfl, rfl⟩
  owned := by
    rintro b (⟨i, hmem | ⟨key, vec, hvec, -⟩⟩ | ⟨p, hp, -⟩)
    · exact Or.inl (List.mem_singleton.mp hmem)
    · cases hvec
    · cases hp

theorem config_validators (h : setup.Sound net) (i : ι) :
    (net.nodes i).consensus.config.validators = setup.validators := by
  rw [(h.rules i).config_eq]
  exact setup.validators_eq i

theorem verifier_of_sound (h : setup.Sound net) (i : ι) :
    (net.nodes i).consensus.verifier = setup.verifier := by
  rw [(h.rules i).verifier_eq]
  exact setup.verifier_eq i

/-- What a node proposes, it proposes for its own slot: the candidate verifies
under the key of the slot, and nobody else's signature does. -/
theorem slotOwner_of_proposes (h : setup.Sound net)
    (hunforgeable : SignaturesUnforgeable setup.verifier) {i : ι} {env : Env}
    {b : Block} (hproposes : Node.Proposes env (net.nodes i) b) :
    setup.slotOwner b = some ⟨Primitives.verifyingKey (setup.seed i)⟩ := by
  have hvalid := (PoAConsensus.accepts_iff _ _ _).mp hproposes.accepted
  obtain ⟨signingKey, hprivate, hsignature⟩ :=
    (Node.buildBlock_built hproposes.built).signature_eq
  rw [Node.drained_identity, (h.rules i).identity_eq] at hprivate
  have hverifies := hvalid.signature_ok
  rw [verifier_of_sound h, hsignature, Node.privateKey_eq hprivate]
    at hverifies
  have hkey := hunforgeable _ _ _ _ hverifies
  have hslot := (net.nodes i).consensus.getElem?_proposerIndex b.header.index
    b.header.round
  unfold PoAConsensus.proposerIndex at hslot
  rw [config_validators h] at hslot
  unfold slotOwner
  rw [hslot, hkey]

/-- A block keeps its place. -/
theorem Owns.advance {i : ι} {b : Block} {added : List Block}
    (h : setup.Owns net i b)
    (hadvance : Node.Advance (net.nodes i) (last.nodes i) added) :
    setup.Owns last i b where
  placed := by
    have hlt := (List.getElem?_eq_some_iff.mp h.placed).1
    rw [hadvance.blocks_eq, List.getElem?_append_left hlt]
    exact h.placed
  slot_eq := h.slot_eq

/-- A step of the network leaves every circulating block with its owner. -/
theorem next_sound [DecidableEq ι] (h : setup.Sound net)
    (hunforgeable : SignaturesUnforgeable setup.verifier) {action : Action ι}
    {out : List (ι × Effect)}
    (hnext : setup.next net action = some (last, out)) : setup.Sound last := by
  have hlinked : ∀ i, Node.Linked (last.nodes i) := by
    intro i
    obtain ⟨added, hadvance⟩ := next_advance hnext i
    exact (h.linked i).advance hadvance
  refine ⟨hlinked, ?_, ?_⟩
  · intro i
    obtain ⟨added, hadvance⟩ := next_advance hnext i
    exact (h.rules i).trans hadvance.sameRules
  · intro b hb
    rcases next_circulates hnext hb with hold | ⟨i, env, rfl, hproposes⟩
    · rcases h.owned b hold with hgenesis | ⟨i, howns⟩
      · exact Or.inl hgenesis
      · obtain ⟨added, hadvance⟩ := next_advance hnext i
        exact Or.inr ⟨i, howns.advance hadvance⟩
    · have hplaced : (last.nodes i).chain.blocks[
          (net.nodes i).chain.blocks.length]? = some b := by
        rw [next_tick hnext, Function.update_self, hproposes.blocks_eq]
        exact List.getElem?_concat_length
      have hindex := (hlinked i).index_eq hplaced
      exact Or.inr ⟨i, hindex ▸ hplaced,
        slotOwner_of_proposes h hunforgeable hproposes⟩

/-! ## Blocks of one height -/

/-- The round of a block says which one of its height it is. -/
theorem Sound.eq_of_round (h : setup.Sound net) {i j : ι} {height : Nat}
    {a b : Block} (ha : (net.nodes i).chain.blocks[height]? = some a)
    (hb : (net.nodes j).chain.blocks[height]? = some b)
    (hround : a.header.round = b.header.round) : a = b := by
  have hindexA := (h.linked i).index_eq ha
  have hindexB := (h.linked j).index_eq hb
  by_cases hzero : height = 0
  · subst hzero
    have hheadA := (h.linked i).head_eq
    have hheadB := (h.linked j).head_eq
    rw [List.head?_eq_getElem?] at hheadA hheadB
    exact Option.some.inj (ha.symm.trans (hheadA.trans (hheadB.symm.trans hb)))
  -- above the genesis block both have an owner, and it is the same
  have howner : ∀ {k : ι} {c : Block}, c ∈ (net.nodes k).chain.blocks →
      c.header.index.toNat = height → ∃ o, setup.Owns net o c := by
    intro k c hc hindex
    rcases h.owned c (Or.inl ⟨k, Or.inl hc⟩) with rfl | howns
    · exact absurd hindex.symm hzero
    · exact howns
  obtain ⟨o, hownsA⟩ := howner (List.mem_of_getElem? ha) hindexA
  obtain ⟨p, hownsB⟩ := howner (List.mem_of_getElem? hb) hindexB
  have hindex : a.header.index = b.header.index :=
    UInt64.toNat_inj.mp (hindexA.trans hindexB.symm)
  have hslot : setup.slotOwner a = setup.slotOwner b := by
    unfold slotOwner
    rw [hindex, hround]
  have hkeys : Primitives.verifyingKey (setup.seed o) =
      Primitives.verifyingKey (setup.seed p) := by
    have hsame := hownsA.slot_eq.symm.trans (hslot.trans hownsB.slot_eq)
    exact congrArg Validator.pubkey (Option.some.inj hsame)
  obtain rfl : o = p :=
    setup.keys_inj o p (List.mem_of_getElem? hownsA.slot_eq) hkeys
  have hplacedA := hownsA.placed
  rw [hindex, hownsB.placed] at hplacedA
  exact (Option.some.inj hplacedA).symm

/-- Blocks with one round at one height have the same blocks below them. -/
theorem Sound.agree_of_round (h : setup.Sound net) {i j : ι}
    (hinj : Set.InjOn calcHash (headerInputs
      ((net.nodes i).chain.blocks ++ (net.nodes j).chain.blocks)))
    {height : Nat} {a b : Block}
    (ha : (net.nodes i).chain.blocks[height]? = some a)
    (hb : (net.nodes j).chain.blocks[height]? = some b)
    (hround : a.header.round = b.header.round) :
    ∀ k ≤ height,
      (net.nodes i).chain.blocks[k]? = (net.nodes j).chain.blocks[k]? := by
  induction height generalizing a b with
  | zero =>
      intro k hk
      obtain rfl : k = 0 := Nat.le_zero.mp hk
      rw [ha, hb, h.eq_of_round ha hb hround]
  | succ height ih =>
      have hab := h.eq_of_round ha hb hround
      intro k hk
      rcases Nat.le_succ_iff.mp hk with hlower | rfl
      · have hltA := (List.getElem?_eq_some_iff.mp ha).1
        have hltB := (List.getElem?_eq_some_iff.mp hb).1
        have hparentA := List.getElem?_eq_getElem (Nat.lt_of_succ_lt hltA)
        have hparentB := List.getElem?_eq_getElem (Nat.lt_of_succ_lt hltB)
        have hfollowsA := follows_of_isChain (h.linked i).follows hparentA ha
        have hfollowsB := follows_of_isChain (h.linked j).follows hparentB hb
        have hheader := Block.headerToBytes_inj (hinj
          ⟨_, List.mem_append_left _ (List.mem_of_getElem? hparentA), rfl⟩
          ⟨_, List.mem_append_right _ (List.mem_of_getElem? hparentB), rfl⟩
          (hfollowsA.previousHash_eq.symm.trans
            (hab ▸ hfollowsB.previousHash_eq)))
        exact ih hparentA hparentB (congrArg BlockHeader.round hheader) k hlower
      · rw [ha, hb, hab]

/-! ## Runs -/

theorem run_sound [DecidableEq ι]
    (hunforgeable : SignaturesUnforgeable setup.verifier)
    {actions : List (Action ι)} {out : List (ι × Effect)}
    (hrun : Run setup.next setup.start actions net out) : setup.Sound net :=
  hrun.invariant setup.start_sound fun _ _ _ _ hs hnext =>
    next_sound hs hunforgeable hnext

/-- In every reachable state of a network, whatever was delivered in whatever
order: the chains of two nodes hold the same block at a height if and only if
the two blocks carry the same round, and then they agree at all heights up to
it. -/
theorem run_agreement [DecidableEq ι]
    (hunforgeable : SignaturesUnforgeable setup.verifier)
    {actions : List (Action ι)} {out : List (ι × Effect)}
    (hrun : Run setup.next setup.start actions net out) {i j : ι}
    (hinj : Set.InjOn calcHash (headerInputs
      ((net.nodes i).chain.blocks ++ (net.nodes j).chain.blocks)))
    {height : Nat} {a b : Block}
    (ha : (net.nodes i).chain.blocks[height]? = some a)
    (hb : (net.nodes j).chain.blocks[height]? = some b) :
    (a.hash = b.hash ↔ a.header.round = b.header.round) ∧
      (a.header.round = b.header.round → ∀ k ≤ height,
        (net.nodes i).chain.blocks[k]? = (net.nodes j).chain.blocks[k]?) := by
  have hsound := run_sound hunforgeable hrun
  refine ⟨⟨?_, ?_⟩, hsound.agree_of_round hinj ha hb⟩
  · intro hhash
    have hheader := Block.headerToBytes_inj (hinj
      ⟨a, List.mem_append_left _ (List.mem_of_getElem? ha), rfl⟩
      ⟨b, List.mem_append_right _ (List.mem_of_getElem? hb), rfl⟩ hhash)
    exact congrArg BlockHeader.round hheader
  · intro hround
    rw [hsound.eq_of_round ha hb hround]

end Setup

end B4n

namespace B4n.Blockchain.Sample

open B4n.Lib

/-- The first validator proposes for round 0.  The second one hears nothing of
it, and proposes for round 1 when the timeout is over. -/
private def unheard : List (Action Party) :=
  [.handle .first (env 10) (.localTrx (trx 1 "coffee")), .tick .first (env 1000),
    .handle .second (env 2500) (.localTrx (trx 2 "tea")), .tick .second (env 3000)]

private def forked : Network Party :=
  (finish pair.next pair.start unheard).1

private theorem unheard_ok :
    (exec pair.next pair.start unheard).isSome = true ∧
      ((((forked.nodes .first).chain.blocks ++
        (forked.nodes .second).chain.blocks).map
          Block.headerToBytes).dedup.map calcHash).Nodup ∧
      1 < (forked.nodes .first).chain.blocks.length ∧
      1 < (forked.nodes .second).chain.blocks.length ∧
      ((forked.nodes .first).chain.blocks[1]?.map Block.hash) ≠
        ((forked.nodes .second).chain.blocks[1]?.map Block.hash) := by
  decide +kernel

/-- Two reachable chains with different blocks at height 1. -/
theorem timeout_forks :
    SignaturesUnforgeable pair.verifier ∧
      ∃ actions out, Run pair.next pair.start actions forked out ∧
      Set.InjOn calcHash (headerInputs
        ((forked.nodes .first).chain.blocks ++ (forked.nodes .second).chain.blocks)) ∧
      ∃ a b, (forked.nodes .first).chain.blocks[1]? = some a ∧
        (forked.nodes .second).chain.blocks[1]? = some b ∧ a.hash ≠ b.hash := by
  obtain ⟨hlive, hnodup, hfirst, hsecond, hdiffer⟩ := unheard_ok
  have ha := List.getElem?_eq_getElem hfirst
  have hb := List.getElem?_eq_getElem hsecond
  have hrun : Run pair.next pair.start unheard forked _ := run_finish hlive
  refine ⟨signaturesUnforgeable, unheard, _, hrun,
    injOn_headerInputs_of_nodup hnodup, _, _, ha, hb, ?_⟩
  intro hsame
  rw [ha, hb] at hdiffer
  exact hdiffer (congrArg some hsame)

/-- The second validator gets the first one's block. -/
private def relayed : List (Action Party) :=
  [.handle .first (env 10) (.addPeer 4 1),
    .handle .first (env 20) (.localTrx (trx 1 "coffee")), .tick .first (env 1000),
    .deliver 3 (env 1100)]

private def agreed : Network Party :=
  (finish pair.next pair.start relayed).1

private theorem relayed_ok :
    (exec pair.next pair.start relayed).isSome = true ∧
      ((((agreed.nodes .first).chain.blocks ++
        (agreed.nodes .second).chain.blocks).map
          Block.headerToBytes).dedup.map calcHash).Nodup ∧
      1 < (agreed.nodes .first).chain.blocks.length ∧
      1 < (agreed.nodes .second).chain.blocks.length := by
  decide +kernel

theorem run_agreement_relayed :
    ∃ a b, (agreed.nodes .first).chain.blocks[1]? = some a ∧
      (agreed.nodes .second).chain.blocks[1]? = some b ∧
      (a.hash = b.hash ↔ a.header.round = b.header.round) := by
  obtain ⟨hlive, hnodup, hfirst, hsecond⟩ := relayed_ok
  have ha := List.getElem?_eq_getElem hfirst
  have hb := List.getElem?_eq_getElem hsecond
  have hrun : Run pair.next pair.start relayed agreed _ := run_finish hlive
  exact ⟨_, _, ha, hb, (Setup.run_agreement signaturesUnforgeable hrun
    (injOn_headerInputs_of_nodup hnodup) ha hb).1⟩

end B4n.Blockchain.Sample
