import B4n.Node.Sample
import Mathlib.Data.List.Chain

/-!
# The chain of a node

A block reaches the chain on three ways: received directly, connected from the
orphan pool, or proposed by the node itself.  Each validates the block against
the tip before `add_block`, which itself checks nothing.  `Advance` is what
every turn of the node does to the chain: it appends a validated extension,
moves the consensus height along and leaves the rules alone.

## Main results

* `step_advance` — every turn is an `Advance`.
* `run_chainSpec` — along every run from `boot` the chain is valid and the
  height bookkeeping is exact, and every turn only appends.
-/

namespace B4n

open Lib Blockchain Transport

variable [Primitives]

namespace Node

/-- `last` continues the chain of `node` by `added`. -/
structure Advance (node last : Node) (added : List Block) : Prop where
  blocks_eq : last.chain.blocks = node.chain.blocks ++ added
  linked : (node.chain.last :: added).IsChain node.consensus.Valid
  config_eq : last.consensus.config = node.consensus.config
  verifier_eq : last.consensus.verifier = node.consensus.verifier
  identity_eq : last.identity = node.identity
  height_eq : last.consensus.state.currentHeight =
    if added = [] then node.consensus.state.currentHeight
    else last.chain.getHeight

end Node

namespace Blockchain.PoAConsensus

/-- Validity depends on the validator list and the verifier only. -/
theorem valid_congr {c d : PoAConsensus}
    (hvalidators : d.config.validators = c.config.validators)
    (hverifier : d.verifier = c.verifier) : d.Valid = c.Valid := by
  obtain ⟨⟨validators, slot, timeout, maxTrx⟩, state, verifier, hok⟩ := c
  obtain ⟨⟨validators', slot', timeout', maxTrx'⟩, state', verifier', hok'⟩ := d
  cases hvalidators
  cases hverifier
  funext prev current
  have hsame : PoAConsensus.accepts
      ⟨⟨validators, slot', timeout', maxTrx'⟩, state', verifier, hok'⟩
      prev current = PoAConsensus.accepts
      ⟨⟨validators, slot, timeout, maxTrx⟩, state, verifier, hok⟩
      prev current := rfl
  rw [eq_iff_iff, ← accepts_iff, ← accepts_iff, hsame]

end Blockchain.PoAConsensus

namespace Node

theorem Advance.valid_eq {node last : Node} {added : List Block}
    (h : Advance node last added) :
    last.consensus.Valid = node.consensus.Valid :=
  PoAConsensus.valid_congr (congrArg _ h.config_eq) h.verifier_eq

/-- A step that leaves chain, consensus and identity alone. -/
theorem Advance.of_same {node last : Node} (hchain : last.chain = node.chain)
    (hconsensus : last.consensus = node.consensus)
    (hidentity : last.identity = node.identity) : Advance node last [] where
  blocks_eq := by rw [hchain, List.append_nil]
  linked := List.isChain_singleton _
  config_eq := by rw [hconsensus]
  verifier_eq := by rw [hconsensus]
  identity_eq := hidentity
  height_eq := by rw [hconsensus, if_pos rfl]

/-- The tip after an advance is the last block added, or the old tip. -/
theorem Advance.last_eq {node last : Node} {added : List Block}
    (h : Advance node last added) :
    last.chain.last = (node.chain.last :: added).getLast (by simp) := by
  have hlast : last.chain.blocks.getLast? =
      (node.chain.blocks ++ added).getLast? := by rw [h.blocks_eq]
  rw [List.getLast?_append, List.getLast?_eq_some_getLast last.chain.nonempty,
    List.getLast?_eq_some_getLast node.chain.nonempty] at hlast
  cases added with
  | nil => exact Option.some.inj hlast
  | cons b rest =>
      rw [List.getLast?_eq_some_getLast (by simp), Option.some_or] at hlast
      rw [List.getLast_cons (by simp)]
      exact Option.some.inj hlast

/-- The height goes up by one with every block. -/
theorem Advance.toNat_getHeight {node last : Node} {added : List Block}
    (h : Advance node last added) :
    last.chain.getHeight.toNat = node.chain.getHeight.toNat + added.length := by
  have hlinked := h.linked
  unfold BlockChain.getHeight
  rw [h.last_eq]
  clear h
  generalize node.chain.last = tip at hlinked ⊢
  induction added generalizing tip with
  | nil => rfl
  | cons b added ih =>
      rw [List.isChain_cons_cons] at hlinked
      have hindex := hlinked.1.follows.toNat_index
      have hrest := ih b hlinked.2
      rw [List.getLast_cons (by simp), hrest, hindex, List.length_cons]
      omega

theorem Advance.trans {node mid last : Node} {added more : List Block}
    (h : Advance node mid added) (h' : Advance mid last more) :
    Advance node last (added ++ more) where
  blocks_eq := by rw [h'.blocks_eq, h.blocks_eq, List.append_assoc]
  linked := by
    have hmore : (mid.chain.last :: more).IsChain node.consensus.Valid := by
      rw [← h.valid_eq]
      exact h'.linked
    rw [← List.cons_append, List.isChain_append]
    refine ⟨h.linked, hmore.tail, ?_⟩
    intro x hx y hy
    rw [List.getLast?_eq_some_getLast (by simp), ← h.last_eq] at hx
    cases hx
    exact hmore.rel_head? hy
  config_eq := h'.config_eq.trans h.config_eq
  verifier_eq := h'.verifier_eq.trans h.verifier_eq
  identity_eq := h'.identity_eq.trans h.identity_eq
  height_eq := by
    rw [h'.height_eq]
    by_cases hmore : more = []
    · subst hmore
      rw [if_pos rfl, h.height_eq, List.append_nil]
      by_cases hadded : added = []
      · rw [if_pos hadded, if_pos hadded]
      · rw [if_neg hadded, if_neg hadded, BlockChain.getHeight,
          BlockChain.getHeight, h'.last_eq]
        rfl
    · rw [if_neg hmore, if_neg (by simp [hmore])]

/-- What the fields of an advance do not mention may change after it. -/
theorem Advance.then_same {node mid last : Node} {added : List Block}
    (h : Advance node mid added) (hchain : last.chain = mid.chain)
    (hconsensus : last.consensus = mid.consensus)
    (hidentity : last.identity = mid.identity) : Advance node last added := by
  have hlast := h.trans (.of_same hchain hconsensus hidentity)
  rwa [List.append_nil] at hlast

/-- Appending an accepted block and moving the height is an advance. -/
theorem grow_advance (env : Env) {node : Node} {block : Block}
    (hok : node.consensus.accepts node.chain.last block = true) :
    Advance node (node.grow env block) [block] where
  blocks_eq := rfl
  linked := List.isChain_pair.mpr
    ((PoAConsensus.accepts_iff _ _ _).mp hok)
  config_eq := rfl
  verifier_eq := rfl
  identity_eq := rfl
  height_eq := by
    rw [if_neg (by simp)]
    exact (BlockChain.getHeight_addBlock _ _).symm

/-! ## Every turn is an advance -/

theorem IntakeStep.advance {env : Env} {incoming : List Block}
    {node last : Node} {effects : List Effect}
    (h : IntakeStep env incoming node last effects) :
    ∃ added, Advance node last added := by
  cases h with
  | mark b hb hnew => exact ⟨[], .of_same rfl rfl rfl⟩
  | receive b hb hok =>
      exact ⟨[b], (grow_advance env hok).then_same rfl rfl rfl⟩
  | connect vec pos hvec hok =>
      exact ⟨[vec.get pos], (grow_advance env hok).then_same rfl rfl rfl⟩
  | reorder orphans hsame hheld => exact ⟨[], .of_same rfl rfl rfl⟩
  | orphan b hb hlt =>
      obtain ⟨orphans, total, hput⟩ := node.putOrphan_eq b
      exact ⟨[], hput ▸ .of_same rfl rfl rfl⟩
  | sync pid start hpid =>
      have hcore := node.startSync_core pid start
      exact ⟨[], .of_same hcore.chain hcore.consensus hcore.identity⟩

theorem Intake.advance {env : Env} {incoming : List Block}
    {node last : Node} {effects : List Effect}
    (h : Intake env incoming node last effects) :
    ∃ added, Advance node last added := by
  induction h with
  | refl node => exact ⟨[], .of_same rfl rfl rfl⟩
  | head hstep _ ih =>
      obtain ⟨added, hadded⟩ := hstep.advance
      obtain ⟨more, hmore⟩ := ih
      exact ⟨added ++ more, hadded.trans hmore⟩

theorem onMessage_advance (env : Env) (node : Node) (m : NodeMessage) :
    ∃ added, Advance node (node.onMessage env m).node added := by
  obtain ⟨mid, effects, rest, hintake, hcore, -, -⟩ := node.onMessage_spec env m
  obtain ⟨added, hadded⟩ := hintake.advance
  exact ⟨added,
    hadded.then_same hcore.chain hcore.consensus hcore.identity⟩

theorem drained_advance (env : Env) (node : Node) :
    Advance node (node.drained env) [] := by
  obtain ⟨consensus, hadvance, hconsensus⟩ := node.advanceRound_eq env
  unfold drained
  rw [hadvance]
  rcases hconsensus with rfl | ⟨round, rfl⟩
  · exact .of_same rfl rfl rfl
  · exact ⟨(List.append_nil _).symm, List.isChain_singleton _, rfl, rfl, rfl,
      rfl⟩

theorem markSeenBlock_advance (node : Node) (h : Hash32Type) :
    Advance node (node.markSeenBlock h).2 [] := by
  unfold markSeenBlock
  split <;> exact .of_same rfl rfl rfl

/-- A proposal that passes its own validation appends the candidate. -/
theorem proposed_advance (env : Env) {node : Node} {candidate : Block}
    (hok : node.consensus.accepts node.chain.last candidate = true) :
    Advance node (((node.drained env).grow env candidate).markSeenBlock
      candidate.hash).2 [candidate] := by
  have hgrow : Advance (node.drained env)
      ((node.drained env).grow env candidate) [candidate] := by
    apply grow_advance
    rw [drained_chain, accepts_drained]
    exact hok
  exact ((node.drained_advance env).trans hgrow).trans
    (markSeenBlock_advance _ candidate.hash)

theorem onTick_advance (env : Env) (node : Node) :
    ∃ added, Advance node (node.onTick env).node added := by
  have hcase := node.onTick_cases env
  generalize node.onTick env = reaction at hcase ⊢
  cases hcase with
  | waited consensus hconsensus hno =>
      rcases hconsensus with rfl | ⟨round, rfl⟩
      · exact ⟨[], .of_same rfl rfl rfl⟩
      · exact ⟨[], (List.append_nil _).symm, List.isChain_singleton _, rfl, rfl,
          rfl, rfl⟩
  | keyless hturn htxs hbuild => exact ⟨[], node.drained_advance env⟩
  | refused candidate hturn htxs hbuild hbad =>
      exact ⟨[], node.drained_advance env⟩
  | proposed candidate hturn htxs hbuild hok =>
      exact ⟨[candidate], proposed_advance env hok⟩

/-- Every turn of a node appends a validated extension to its chain. -/
theorem step_advance (env : Env) (node : Node) (input : Input) :
    ∃ added, Advance node (node.step env input).node added := by
  cases input with
  | message m => exact node.onMessage_advance env m
  | tick => exact node.onTick_advance env

theorem next_advance {node last : Node} {i : Env × Input}
    {effects : List Effect} (h : node.next i = some (last, effects)) :
    ∃ added, Advance node last added := by
  obtain ⟨rfl, -, -⟩ := next_eq_some h
  exact node.step_advance i.1 i.2

/-! ## Runs -/

/-- What holds of the chain in every state of a run from `boot`. -/
structure ChainSpec (node : Node) : Prop where
  head_eq : node.chain.blocks.head? =
    some (Block.newGenesis BlockHeader.newGenesis)
  validated : node.chain.blocks.IsChain fun prev current =>
    node.consensus.validateBlock prev current = .ok ()
  isValid : node.chain.isValid = true
  index_eq : ∀ (i : Nat) (block : Block),
    node.chain.blocks[i]? = some block → block.header.index.toNat = i
  height_eq : node.chain.getHeight.toNat = node.chain.blocks.length - 1
  currentHeight_eq :
    node.consensus.state.currentHeight = node.chain.getHeight

/-- The part of `ChainSpec` that the others follow from. -/
structure Linked (node : Node) : Prop where
  head_eq : node.chain.blocks.head? =
    some (Block.newGenesis BlockHeader.newGenesis)
  linked : node.chain.blocks.IsChain node.consensus.Valid

theorem Linked.follows {node : Node} (h : Linked node) :
    node.chain.blocks.IsChain Block.Follows :=
  h.linked.imp fun _ _ hvalid => hvalid.follows

/-- The index of a block is its position. -/
theorem Linked.index_eq {node : Node} (h : Linked node) {i : Nat}
    {block : Block} (hblock : node.chain.blocks[i]? = some block) :
    block.header.index.toNat = i := by
  have hindex := BlockChain.index_of_isChain h.follows h.head_eq i block hblock
  have hgenesis : (Block.newGenesis BlockHeader.newGenesis).header.index.toNat
      = 0 := rfl
  rwa [hgenesis, Nat.zero_add] at hindex

theorem Linked.height_eq {node : Node} (h : Linked node) :
    node.chain.getHeight.toNat = node.chain.blocks.length - 1 :=
  h.index_eq node.chain.getElem?_tip

/-- A valid extension of linked blocks is linked. -/
theorem Linked.advance {node last : Node} {added : List Block}
    (h : Linked node) (hadvance : Advance node last added) : Linked last where
  head_eq := by
    rw [hadvance.blocks_eq, List.head?_append, h.head_eq, Option.some_or]
  linked := by
    rw [hadvance.valid_eq, hadvance.blocks_eq, List.isChain_append]
    refine ⟨h.linked, hadvance.linked.tail, ?_⟩
    intro x hx y hy
    rw [List.getLast?_eq_some_getLast node.chain.nonempty] at hx
    cases hx
    exact hadvance.linked.rel_head? hy

theorem new_linked (netId : UInt32) (seed : Seed) (chainId : UInt64)
    (consensus : PoAConsensus) :
    Linked (Node.new netId seed (BlockChain.new chainId) consensus) :=
  ⟨rfl, List.isChain_singleton _⟩

/-- Blocks stay linked along every run. -/
theorem run_linked {node last : Node} (hnode : Linked node)
    {inputs : List (Env × Input)} {effects : List Effect}
    (hrun : Run Node.next node inputs last effects) : Linked last := by
  refine hrun.invariant hnode ?_
  intro node i next effects hlinked hnext
  obtain ⟨added, hadvance⟩ := next_advance hnext
  exact hlinked.advance hadvance

/-- What no run changes. -/
structure SameRules (node last : Node) : Prop where
  config_eq : last.consensus.config = node.consensus.config
  verifier_eq : last.consensus.verifier = node.consensus.verifier
  identity_eq : last.identity = node.identity

theorem Advance.sameRules {node last : Node} {added : List Block}
    (h : Advance node last added) : SameRules node last :=
  ⟨h.config_eq, h.verifier_eq, h.identity_eq⟩

omit [Primitives] in
theorem SameRules.trans {node mid last : Node} (h : SameRules node mid)
    (h' : SameRules mid last) : SameRules node last where
  config_eq := h'.config_eq.trans h.config_eq
  verifier_eq := h'.verifier_eq.trans h.verifier_eq
  identity_eq := h'.identity_eq.trans h.identity_eq

theorem run_sameRules {node last : Node} {inputs : List (Env × Input)}
    {effects : List Effect}
    (hrun : Run Node.next node inputs last effects) : SameRules node last := by
  apply hrun.invariant
  · exact ⟨rfl, rfl, rfl⟩
  · intro s i t out hs hnext
    obtain ⟨added, hadvance⟩ := next_advance hnext
    exact hs.trans hadvance.sameRules

/-- A reachable chain is no longer than a `Vec` can be. -/
theorem run_length_le {node last : Node}
    (hnode : node.chain.blocks.length ≤ MAX_VEC_LEN)
    {inputs : List (Env × Input)} {effects : List Effect}
    (hrun : Run Node.next node inputs last effects) :
    last.chain.blocks.length ≤ MAX_VEC_LEN := by
  refine hrun.invariant
    (P := fun node : Node => node.chain.blocks.length ≤ MAX_VEC_LEN) hnode ?_
  intro node i next effects _ hnext
  exact (next_eq_some hnext).2.2

/-- The height of a reachable tip is far from wrapping around. -/
theorem run_height_lt {netId : UInt32} {seed : Seed} {chainId : UInt64}
    {consensus : PoAConsensus} {last : Node} {inputs : List (Env × Input)}
    {effects : List Effect}
    (hrun : Run Node.next
      (Node.new netId seed (BlockChain.new chainId) consensus) inputs last
      effects) : last.chain.getHeight.toNat + 1 < 2 ^ 64 := by
  have hone : (Node.new netId seed (BlockChain.new chainId)
      consensus).chain.blocks.length ≤ MAX_VEC_LEN := by
    show 1 ≤ MAX_VEC_LEN
    decide
  have hlength := run_length_le hone hrun
  have hheight := (run_linked (new_linked _ _ _ _) hrun).height_eq
  unfold MAX_VEC_LEN at hlength
  omega

/-- The consensus height follows the chain. -/
theorem currentHeight_advance {node last : Node} {added : List Block}
    (h : node.consensus.state.currentHeight = node.chain.getHeight)
    (hadvance : Advance node last added) :
    last.consensus.state.currentHeight = last.chain.getHeight := by
  rw [hadvance.height_eq]
  split
  · rename_i hnone
    subst hnone
    rw [h, BlockChain.getHeight, BlockChain.getHeight, hadvance.last_eq]
    rfl
  · rfl

theorem Linked.chainSpec {node : Node} (h : Linked node)
    (hheight : node.consensus.state.currentHeight = node.chain.getHeight) :
    ChainSpec node where
  head_eq := h.head_eq
  validated := h.linked.imp fun _ _ hvalid =>
    (PoAConsensus.validateBlock_eq_ok_iff _ _ _).mpr hvalid
  isValid := BlockChain.windowsValid_of_isChain h.follows
  index_eq := fun _ _ => h.index_eq
  height_eq := h.height_eq
  currentHeight_eq := hheight

/-- Along every run from the set-up of `cli::run`, the chain is valid, heights
and positions agree, and whatever is handled next only appends. -/
theorem run_chainSpec {now : Instant} {netId : UInt32} {seed : Seed}
    {chainId : UInt64} {config : PoAConsensusConfig} {verifier : Verifier}
    {node last : Node} {inputs : List (Env × Input)} {effects : List Effect}
    (hboot : boot now netId seed chainId config verifier = .ok node)
    (hrun : Run Node.next node inputs last effects) :
    ChainSpec last ∧ ∀ (env : Env) (input : Input),
      last.chain.blocks <+: (last.step env input).node.chain.blocks := by
  obtain ⟨hok, rfl⟩ := boot_eq_ok_iff.mp hboot
  have hinv : Linked last ∧
      last.consensus.state.currentHeight = last.chain.getHeight := by
    refine hrun.invariant (P := fun node : Node => Linked node ∧
      node.consensus.state.currentHeight = node.chain.getHeight)
      ⟨new_linked _ _ _ _, rfl⟩ ?_
    rintro node i next effects ⟨hlinked, hheight⟩ hnext
    obtain ⟨added, hadvance⟩ := next_advance hnext
    exact ⟨hlinked.advance hadvance, currentHeight_advance hheight hadvance⟩
  refine ⟨hinv.1.chainSpec hinv.2, fun env input => ?_⟩
  obtain ⟨added, hadvance⟩ := last.step_advance env input
  exact ⟨added, hadvance.blocks_eq.symm⟩

end Node

end B4n

namespace B4n.Blockchain.Sample

open B4n.Lib

/-- A transaction and two ticks: too early, and a proposal. -/
private def proposal : List (Env × Input) :=
  [(env 10, .message (.localTrx (trx 1 "coffee"))), (env 20, .tick),
    (env 1000, .tick)]

private theorem proposal_run : ∃ last effects, Run Node.next
    (node 1 1 (config [1] 8) config_one_ok) proposal last effects ∧
      last.chain.blocks.length = 2 :=
  exists_run (by decide +kernel)

theorem run_chainSpec_proposal :
    ∃ last effects, Run Node.next
      (node 1 1 (config [1] 8) config_one_ok) proposal last effects ∧
      last.chain.blocks.length = 2 ∧ Node.ChainSpec last := by
  obtain ⟨last, effects, hrun, hlength⟩ := proposal_run
  exact ⟨last, effects, hrun, hlength,
    (Node.run_chainSpec (boot_node _ _ _ _) hrun).1⟩

end B4n.Blockchain.Sample
