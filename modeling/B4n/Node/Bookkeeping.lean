import B4n.Node.Run

/-!
# Bookkeeping

The seen window is a set and a queue that are updated one after the other, and
the orphan pool is a map of buckets with a counter beside it.  In every
reachable state the set is the queue's, and the counter is at least the number
of orphans held.  The page length stays at its first value, 256.

## Main results

* `run_bookkeeping` — all of this holds along every run.
-/

namespace B4n

open Lib Blockchain Transport

namespace Node

/-- The containers of the node agree. -/
structure Bookkeeping (node : Node) : Prop where
  inStep : InStep node.seenBlocks node.seenBlocksOrder
  held_le : held node.orphansByPrev ≤ node.orphansTotal
  syncLimit_eq : node.syncLimit = 256

/-- The fields that `Bookkeeping` is about are the same. -/
theorem Bookkeeping.of_same {node last : Node} (h : Bookkeeping node)
    (hseen : last.seenBlocks = node.seenBlocks)
    (horder : last.seenBlocksOrder = node.seenBlocksOrder)
    (horphans : last.orphansByPrev = node.orphansByPrev)
    (htotal : last.orphansTotal = node.orphansTotal)
    (hlimit : last.syncLimit = node.syncLimit) : Bookkeeping last where
  inStep := by
    rw [hseen, horder]
    exact h.inStep
  held_le := by
    rw [horphans, htotal]
    exact h.held_le
  syncLimit_eq := hlimit.trans h.syncLimit_eq

theorem SameCore.bookkeeping {node last : Node} (hcore : SameCore node last)
    (h : Bookkeeping node) : Bookkeeping last :=
  h.of_same hcore.seenBlocks hcore.seenBlocksOrder hcore.orphansByPrev
    hcore.orphansTotal hcore.syncLimit

theorem mark_bookkeeping {node : Node} (h : Bookkeeping node)
    {hash : Hash32Type} (hnew : hash ∉ node.seenBlocks) :
    Bookkeeping (node.mark hash) where
  inStep := remember_inStep MAX_SEEN_BLOCKS h.inStep hnew
  held_le := h.held_le
  syncLimit_eq := h.syncLimit_eq

theorem markSeenBlock_bookkeeping {node : Node} (h : Bookkeeping node)
    (hash : Hash32Type) : Bookkeeping (node.markSeenBlock hash).2 := by
  by_cases hseen : hash ∈ node.seenBlocks
  · rw [markSeenBlock_of_mem hseen]
    exact h
  · rw [markSeenBlock_of_not_mem hseen]
    exact mark_bookkeeping h hseen

/-- The counter goes up with the pool. -/
theorem putOrphan_bookkeeping {node : Node} (h : Bookkeeping node)
    (block : Block) : Bookkeeping (node.putOrphan block) := by
  unfold putOrphan
  dsimp only
  split
  · exact h
  · split
    · exact h
    · refine ⟨h.inStep, ?_, h.syncLimit_eq⟩
      show held (node.orphansByPrev.insert _ _) ≤ node.orphansTotal + 1
      have hcount := held_insert_getD node.orphansByPrev
        block.header.previousHash
        ((node.orphansByPrev.lookup block.header.previousHash).getD [] ++
          [block])
      rw [List.length_append, List.length_singleton] at hcount
      have hle := h.held_le
      omega

variable [Primitives]

/-- The counter goes down by one with the block that is connected, and the pool
by at least one: leftovers may not find room under the new tip. -/
theorem connect_bookkeeping {env : Env} {node : Node} (h : Bookkeeping node)
    {vec : List Block} (pos : Fin vec.length)
    (hvec : node.orphansByPrev.lookup node.chain.last.hash = some vec) :
    Bookkeeping { node.grow env (vec.get pos) with
      orphansByPrev :=
        refile (node.orphansByPrev.erase node.chain.last.hash)
          (vec.get pos).hash (swapRemove vec pos)
      orphansTotal := node.orphansTotal - 1 } where
  inStep := h.inStep
  held_le := by
    have hrefile := held_refile_le
      (node.orphansByPrev.erase node.chain.last.hash) (vec.get pos).hash
      (swapRemove vec pos)
    have herase := held_erase hvec
    have hlength := length_swapRemove vec pos
    have hle := h.held_le
    show held (refile _ _ _) ≤ node.orphansTotal - 1
    omega
  syncLimit_eq := h.syncLimit_eq

theorem IntakeStep.bookkeeping {env : Env} {incoming : List Block}
    {node last : Node} {effects : List Effect} (h : Bookkeeping node)
    (hstep : IntakeStep env incoming node last effects) :
    Bookkeeping last := by
  cases hstep with
  | mark b hb hnew => exact mark_bookkeeping h hnew
  | receive b hb hok => exact h.of_same rfl rfl rfl rfl rfl
  | connect vec pos hvec hok => exact connect_bookkeeping h pos hvec
  | reorder orphans hsame hheld =>
      refine ⟨h.inStep, ?_, h.syncLimit_eq⟩
      show held orphans ≤ node.orphansTotal
      rw [hheld]
      exact h.held_le
  | orphan b hb hlt => exact putOrphan_bookkeeping h b
  | sync pid start hpid => exact (node.startSync_core pid start).bookkeeping h

theorem onMessage_bookkeeping {env : Env} {node : Node} (h : Bookkeeping node)
    (m : NodeMessage) : Bookkeeping (node.onMessage env m).node := by
  obtain ⟨mid, effects, rest, hintake, hcore, -, -⟩ := node.onMessage_spec env m
  apply hcore.bookkeeping
  apply hintake.invariant _ h
  intro s t out hs hstep
  exact hstep.bookkeeping hs

omit [Primitives] in
theorem drained_bookkeeping {node : Node} (h : Bookkeeping node) (env : Env) :
    Bookkeeping (node.drained env) := by
  obtain ⟨consensus, pool, hdrained, -, -⟩ := node.drained_eq env
  rw [hdrained]
  exact h.of_same rfl rfl rfl rfl rfl

theorem onTick_bookkeeping {env : Env} {node : Node} (h : Bookkeeping node) :
    Bookkeeping (node.onTick env).node := by
  have hcase := node.onTick_cases env
  generalize node.onTick env = reaction at hcase ⊢
  cases hcase with
  | waited consensus hconsensus hno => exact h.of_same rfl rfl rfl rfl rfl
  | keyless hturn htxs hbuild => exact drained_bookkeeping h env
  | refused candidate hturn htxs hbuild hbad => exact drained_bookkeeping h env
  | proposed candidate hturn htxs hbuild hok =>
      apply markSeenBlock_bookkeeping
      exact (drained_bookkeeping h env).of_same rfl rfl rfl rfl rfl

/-- In every state of every run the containers agree. -/
theorem run_bookkeeping {netId : UInt32} {seed : Seed} {chain : BlockChain}
    {consensus : PoAConsensus} {node : Node} {inputs : List (Env × Input)}
    {effects : List Effect}
    (hrun : Run Node.next (Node.new netId seed chain consensus) inputs node
      effects) : Bookkeeping node := by
  apply hrun.invariant
  · exact ⟨InStep.empty, Nat.le_refl _, rfl⟩
  · intro s i t out hs hnext
    obtain ⟨rfl, -, -⟩ := next_eq_some hnext
    obtain ⟨env, input⟩ := i
    cases input with
    | message m => exact onMessage_bookkeeping hs m
    | tick => exact onTick_bookkeeping hs

end Node

end B4n
