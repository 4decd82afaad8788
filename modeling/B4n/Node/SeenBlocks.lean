import B4n.Node.Chain

/-!
# Seen blocks

`handle_incoming_block` remembers the hash of every block before it looks at
the block, and never looks at a block with a remembered hash again.  The hash
covers the header only.

## Main results

* `run_block_appended_iff` — in every reachable state, a valid next block is
  appended if and only if its hash is not remembered, and a remembered hash was
  handled before.
-/

namespace B4n

open Lib Blockchain Transport

variable [Primitives]

namespace Node

/-- This turn handles a block with the given hash: a message brings it in or
the node proposes it. -/
def HandlesHash (node : Node) (i : Env × Input) (h : Hash32Type) : Prop :=
  ∃ b : Block, b.hash = h ∧
    ((∃ m, i.2 = .message m ∧ b ∈ incoming m) ∨
      (i.2 = .tick ∧ Effect.signed b ∈ (node.onTick i.1).effects))

/-! ## What the handlers remember -/

omit [Primitives] in
theorem mem_seenBlocks_mark {node : Node} {h other : Hash32Type}
    (hmem : other ∈ (node.mark h).seenBlocks) :
    other ∈ node.seenBlocks ∨ other = h := by
  by_contra hno
  rw [not_or] at hno
  exact not_mem_remember _ _ hno.2 hno.1 hmem

omit [Primitives] in
theorem mem_seenBlocks_markSeenBlock {node : Node} {h other : Hash32Type}
    (hmem : other ∈ (node.markSeenBlock h).2.seenBlocks) :
    other ∈ node.seenBlocks ∨ other = h := by
  by_cases hseen : h ∈ node.seenBlocks
  · rw [markSeenBlock_of_mem hseen] at hmem
    exact Or.inl hmem
  · rw [markSeenBlock_of_not_mem hseen] at hmem
    exact mem_seenBlocks_mark hmem

theorem IntakeStep.mem_seenBlocks {env : Env} {incoming : List Block}
    {node last : Node} {effects : List Effect}
    (hstep : IntakeStep env incoming node last effects) {h : Hash32Type}
    (hmem : h ∈ last.seenBlocks) :
    h ∈ node.seenBlocks ∨ ∃ b ∈ incoming, b.hash = h := by
  cases hstep with
  | mark b hb hnew =>
      rcases mem_seenBlocks_mark hmem with hold | rfl
      · exact Or.inl hold
      · exact Or.inr ⟨b, hb, rfl⟩
  | receive b hb hok => exact Or.inl hmem
  | connect vec pos hvec hok => exact Or.inl hmem
  | reorder orphans hsame hheld => exact Or.inl hmem
  | orphan b hb hlt =>
      obtain ⟨orphans, total, hput⟩ := node.putOrphan_eq b
      rw [hput] at hmem
      exact Or.inl hmem
  | sync pid start hpid =>
      rw [(node.startSync_core pid start).seenBlocks] at hmem
      exact Or.inl hmem

theorem Intake.mem_seenBlocks {env : Env} {incoming : List Block}
    {node last : Node} {effects : List Effect}
    (hintake : Intake env incoming node last effects) {h : Hash32Type}
    (hmem : h ∈ last.seenBlocks) :
    h ∈ node.seenBlocks ∨ ∃ b ∈ incoming, b.hash = h := by
  induction hintake with
  | refl node => exact Or.inl hmem
  | head hstep _ ih =>
      rcases ih hmem with hmid | hin
      · exact hstep.mem_seenBlocks hmid
      · exact Or.inr hin

/-- What a turn adds to the remembered hashes, it handles. -/
theorem step_mem_seenBlocks {env : Env} {node : Node} {input : Input}
    {h : Hash32Type} (hmem : h ∈ (node.step env input).node.seenBlocks) :
    h ∈ node.seenBlocks ∨ HandlesHash node (env, input) h := by
  cases input with
  | message m =>
      obtain ⟨mid, effects, rest, hintake, hcore, -, -⟩ :=
        node.onMessage_spec env m
      have hmid : h ∈ mid.seenBlocks := hcore.seenBlocks ▸ hmem
      rcases hintake.mem_seenBlocks hmid with hold | ⟨b, hb, hhash⟩
      · exact Or.inl hold
      · exact Or.inr ⟨b, hhash, Or.inl ⟨m, rfl, hb⟩⟩
  | tick =>
      have hcase := node.onTick_cases env
      unfold HandlesHash
      change h ∈ (node.onTick env).node.seenBlocks at hmem
      generalize node.onTick env = reaction at hcase hmem ⊢
      cases hcase with
      | waited consensus hconsensus hno => exact Or.inl hmem
      | keyless hturn htxs hbuild =>
          exact Or.inl (node.drained_seenBlocks env ▸ hmem)
      | refused candidate hturn htxs hbuild hbad =>
          exact Or.inl (node.drained_seenBlocks env ▸ hmem)
      | proposed candidate hturn htxs hbuild hok =>
          rcases mem_seenBlocks_markSeenBlock hmem with hold | rfl
          · exact Or.inl (node.drained_seenBlocks env ▸ hold)
          · exact Or.inr ⟨candidate, rfl, Or.inr ⟨rfl, by simp⟩⟩

/-- Every remembered hash was handled by an earlier turn. -/
theorem run_handlesHash {netId : UInt32} {seed : Seed} {chain : BlockChain}
    {consensus : PoAConsensus} {node : Node} {inputs : List (Env × Input)}
    {effects : List Effect}
    (hrun : Run Node.next (Node.new netId seed chain consensus) inputs node
      effects) {h : Hash32Type} (hmem : h ∈ node.seenBlocks) :
    ∃ before i after mid out, inputs = before ++ i :: after ∧
      Run Node.next (Node.new netId seed chain consensus) before mid out ∧
      HandlesHash mid i h := by
  induction hrun with
  | start => cases hmem
  | step hprev hnext ih =>
      rename_i inputs mid outputs i last out
      obtain ⟨rfl, -, -⟩ := next_eq_some hnext
      rcases step_mem_seenBlocks hmem with hold | hnow
      · obtain ⟨before, j, after, s, outs, rfl, hbefore, hhandles⟩ := ih hold
        exact ⟨before, j, after ++ [i], s, outs, by simp, hbefore, hhandles⟩
      · exact ⟨inputs, i, [], mid, outputs, rfl, hprev, hnow⟩

/-! ## Valid next blocks -/

/-- A `Block` message with a valid next block appends it, unless its hash is
remembered. -/
theorem onBlock_appended_iff {env : Env} {node : Node} {b : Block}
    (hok : node.consensus.accepts node.chain.last b = true)
    (peerId : UInt32) :
    (∃ more, (node.onMessage env (.net peerId (.block b))).node.chain.blocks =
        node.chain.blocks ++ b :: more) ↔ b.hash ∉ node.seenBlocks := by
  have hunfold : node.onMessage env (.net peerId (.block b)) =
      connectIfProgressed env (node.handleIncomingBlock env b) := rfl
  rw [hunfold]
  constructor
  · rintro ⟨more, hmore⟩ hseen
    rw [handleIncomingBlock_of_mem hseen] at hmore
    have hlen := congrArg List.length hmore
    simp [connectIfProgressed] at hlen
  · intro hnew
    rw [handleIncomingBlock_of_accepts hnew hok]
    unfold connectIfProgressed
    rw [if_pos rfl]
    obtain ⟨added, hadded⟩ := (connectLoop_intake env [] _ _).advance
    refine ⟨added, hadded.blocks_eq.trans ?_⟩
    rw [← List.singleton_append, ← List.append_assoc]
    rfl

/-- In every state of every run, handling a valid next block appends it if and
only if its hash is not among the remembered ones; and those were all handled
by an earlier turn. -/
theorem run_block_appended_iff {netId : UInt32} {seed : Seed}
    {chain : BlockChain} {consensus : PoAConsensus} {node : Node}
    {inputs : List (Env × Input)} {effects : List Effect}
    (hrun : Run Node.next (Node.new netId seed chain consensus) inputs node
      effects) {b : Block}
    (hvalid : node.consensus.validateBlock node.chain.last b = .ok ()) :
    (∀ (env : Env) (peerId : UInt32),
      (∃ more, (node.onMessage env (.net peerId (.block b))).node.chain.blocks =
        node.chain.blocks ++ b :: more) ↔ b.hash ∉ node.seenBlocks) ∧
    (b.hash ∈ node.seenBlocks →
      ∃ before i after mid out, inputs = before ++ i :: after ∧
        Run Node.next (Node.new netId seed chain consensus) before mid out ∧
        HandlesHash mid i b.hash) := by
  have hok : node.consensus.accepts node.chain.last b = true :=
    (PoAConsensus.accepts_iff _ _ _).mpr
      ((PoAConsensus.validateBlock_eq_ok_iff _ _ _).mp hvalid)
  exact ⟨fun env peerId => onBlock_appended_iff hok peerId,
    run_handlesHash hrun⟩

end Node

end B4n

namespace B4n.Blockchain.Sample

open B4n.Lib Transport

/-- The block of validator 1 after the genesis block. -/
private def signedBlock : Block := block genesis [trx 1 "coffee"] 0 0 1

/-- Its header with another body arrives first. -/
private def alteredFirst : List (Env × Input) :=
  [(env 10, .message (.net 7
    (.block { signedBlock with transactions := [trx 1 "tea"] })))]

/-- After the altered block was rejected, the block itself is valid, is not on
the chain, and handling it changes nothing. -/
theorem alteredFirst_refuses :
    ∃ node' effects, Run Node.next
      (node 1 2 (config [1, 2] 8) config_two_ok) alteredFirst node'
        effects ∧
      node'.consensus.validateBlock node'.chain.last signedBlock = .ok () ∧
      signedBlock ∉ node'.chain.blocks ∧
      (node'.onMessage (env 20) (.net 8 (.block signedBlock))).node.chain =
        node'.chain :=
  exists_run (by decide +kernel)

/-- The block after it comes too early, and a block with another round is rejected. -/
private def unsettled : List (Env × Input) :=
  [(env 10, .message (.net 7 (.block (block signedBlock [trx 2 "tea"] 0 1 2)))),
    (env 15, .message (.net 7
      (.block { signedBlock with header := { signedBlock.header with round := 5 } })))]

private def unsettledNode : Node :=
  (finish Node.next (node 1 2 (config [1, 2] 8) config_two_ok) unsettled).1

private theorem unsettled_ok :
    (exec Node.next (node 1 2 (config [1, 2] 8) config_two_ok) unsettled).isSome = true ∧
      unsettledNode.consensus.validateBlock unsettledNode.chain.last signedBlock = .ok () ∧
      unsettledNode.seenBlocks.card = 2 ∧ unsettledNode.orphansTotal = 1 ∧
      signedBlock.hash ∉ unsettledNode.seenBlocks := by
  decide +kernel

/-- The node remembers an orphan and a rejected block, and appends the one that is
missing. -/
theorem run_block_appended_iff_unsettled :
    (unsettledNode.seenBlocks.card = 2 ∧ unsettledNode.orphansTotal = 1) ∧
      ∃ more, (unsettledNode.onMessage (env 20) (.net 8 (.block signedBlock))).node.chain.blocks =
        unsettledNode.chain.blocks ++ signedBlock :: more := by
  obtain ⟨hlive, hvalid, hseen, horphans, hnew⟩ := unsettled_ok
  have hrun : Run Node.next (node 1 2 (config [1, 2] 8) config_two_ok) unsettled unsettledNode _ :=
    run_finish hlive
  exact ⟨⟨hseen, horphans⟩, ((Node.run_block_appended_iff hrun hvalid).1 _ _).mpr hnew⟩

end B4n.Blockchain.Sample
