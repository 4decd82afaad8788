import B4n.Blockchain.PoolHistory
import B4n.Node.Sample

/-!
# The two deduplication windows

The pool and the node remember hashes in the same way, each with a set and a
queue of its own.  In every state of a pool, and in every state of every run of
a node, both hold exactly the hashes that were let in most recently; a hash that
fell out is let in again like a new one.

A turn of the node calls `mark_seen_block` for every block that comes in and for
the block that it proposes, and touches the window in no other way.

## Main results

* `step_window` — a turn changes the window of seen blocks by its calls of
  `mark_seen_block`.
* `windows_exact` — both windows, in every reachable state.
-/

namespace B4n

open Lib Blockchain Transport

namespace Node

/-! ## Marking -/

/-- The window of the seen blocks. -/
def window (node : Node) : Finset Hash32Type × List Hash32Type :=
  (node.seenBlocks, node.seenBlocksOrder)

/-- `mark_seen_block` as a machine that puts out the hashes for which it returns
true. -/
def marking : Machine Node Hash32Type Hash32Type := fun node h =>
  let marked := node.markSeenBlock h
  some (marked.2, if marked.1 then [h] else [])

/-- On the window, marking is an entry. -/
theorem enter_window (node : Node) (h : Hash32Type) :
    enter MAX_SEEN_BLOCKS node.window h =
      some ((node.markSeenBlock h).2.window, if (node.markSeenBlock h).1 then [h] else []) := by
  unfold enter
  show (if h ∈ node.seenBlocks then _ else _) = _
  by_cases hmem : h ∈ node.seenBlocks
  · rw [if_pos hmem, markSeenBlock_of_mem hmem]
    rfl
  · rw [if_neg hmem, markSeenBlock_of_not_mem hmem]
    rfl

theorem run_marking_window {node last : Node} {hashes out : List Hash32Type}
    (hrun : Run marking node hashes last out) :
    Run (enter MAX_SEEN_BLOCKS) node.window hashes last.window out := by
  induction hrun with
  | start => exact .start
  | step _ hnext ih =>
      simp only [marking, Option.some.injEq, Prod.mk.injEq] at hnext
      obtain ⟨rfl, rfl⟩ := hnext
      exact ih.step (enter_window _ _)

theorem exists_run_marking (node : Node) (hashes : List Hash32Type) :
    ∃ last out, Run marking node hashes last out := by
  induction hashes generalizing node with
  | nil => exact ⟨node, [], .start⟩
  | cons h hashes ih =>
      obtain ⟨last, out, hrun⟩ := ih (node.markSeenBlock h).2
      exact ⟨last, _, Run.cons rfl hrun⟩

variable [Primitives]

/-! ## The calls of a turn -/

/-- The calls of `mark_seen_block` in a turn, in order: one for every block that
the message carries, or one for the block that the tick appends. -/
def markCalls (node : Node) (i : Env × Input) : List Hash32Type :=
  match i.2 with
  | .message m => (incoming m).map Block.hash
  | .tick =>
      ((node.onTick i.1).node.chain.blocks.drop node.chain.blocks.length).map Block.hash

/-- Those of them that return true. -/
def newlyMarked (node : Node) (i : Env × Input) : List Hash32Type :=
  (finish marking node (node.markCalls i)).2

/-- The machine of a node that puts out the newly marked hashes. -/
def nextMarks : Machine Node (Env × Input) Hash32Type := fun node i =>
  (node.next i).map fun after => (after.1, node.newlyMarked i)

/-! ## What a turn does to the window -/

theorem handleIncomingBlock_window (env : Env) (node : Node) (b : Block) :
    (node.handleIncomingBlock env b).node.window = (node.markSeenBlock b.hash).2.window := by
  have hcase := node.handleIncomingBlock_cases env b
  generalize node.handleIncomingBlock env b = handled at hcase ⊢
  cases hcase with
  | seen hseen => rw [markSeenBlock_of_mem hseen]
  | stale hnew hle => rw [markSeenBlock_of_not_mem hnew]
  | orphaned hnew hlt hgap =>
      have hcore := orphanAndSync_core env (node.mark b.hash) b (node.chain.getHeight + 1)
      obtain ⟨orphans, total, hput⟩ := (node.mark b.hash).putOrphan_eq b
      rw [markSeenBlock_of_not_mem hnew]
      unfold window
      rw [hcore.seenBlocks, hcore.seenBlocksOrder, hput]
  | rejected hnew hindex hprev hbad => rw [markSeenBlock_of_not_mem hnew]
  | appended hnew hok =>
      rw [markSeenBlock_of_not_mem hnew]
      rfl

theorem handleBatch_window (env : Env) (node : Node) (blocks : List Block) :
    ∃ out, Run (enter MAX_SEEN_BLOCKS) node.window (blocks.map Block.hash)
      (node.handleBatch env blocks).node.window out := by
  induction blocks generalizing node with
  | nil => exact ⟨[], .start⟩
  | cons b blocks ih =>
      obtain ⟨out, hrest⟩ := ih (node.handleIncomingBlock env b).node
      rw [handleIncomingBlock_window] at hrest
      exact ⟨_, Run.cons (enter_window node b.hash) hrest⟩

theorem connectLoop_window (env : Env) (fuel : Nat) (node : Node) :
    (node.connectLoop env fuel).node.window = node.window := by
  induction fuel generalizing node with
  | zero => rfl
  | succ fuel ih =>
      unfold connectLoop
      have hcase := node.connectOnce_cases env
      generalize node.connectOnce env = round at hcase ⊢
      cases hcase with
      | done orphans hsame hheld hnone => rfl
      | connected vec pos hvec hok => exact ih _

theorem connectIfProgressed_window (env : Env) (handled : Handled) :
    (connectIfProgressed env handled).node.window = handled.node.window := by
  unfold connectIfProgressed
  split
  · exact connectLoop_window env _ _
  · rfl

omit [Primitives] in
theorem SameCore.window {node last : Node} (hcore : SameCore node last) :
    last.window = node.window :=
  Prod.ext hcore.seenBlocks hcore.seenBlocksOrder

theorem onMessage_window (env : Env) (node : Node) (m : NodeMessage) :
    ∃ out, Run (enter MAX_SEEN_BLOCKS) node.window ((incoming m).map Block.hash)
      (node.onMessage env m).node.window out := by
  have hcase := node.onMessage_cases env m
  generalize node.onMessage env m = reaction at hcase ⊢
  cases hcase with
  | ignored m hnone =>
      rw [hnone]
      exact ⟨[], .start⟩
  | answered peerId msg reply hnone hserves =>
      rw [show incoming (.net peerId msg) = [] from hnone]
      exact ⟨[], .start⟩
  | trx m trx hnone =>
      rw [hnone, (acceptTrx_core env node trx).window]
      exact ⟨[], .start⟩
  | addPeer peerId sender => exact ⟨[], .start⟩
  | removePeer peerId =>
      rw [(removePeer_core node peerId).window]
      exact ⟨[], .start⟩
  | started peerId height hash start =>
      rw [(startSync_core node peerId start).window]
      exact ⟨[], .start⟩
  | block peerId b =>
      rw [connectIfProgressed_window, handleIncomingBlock_window]
      exact ⟨_, Run.cons (enter_window node b.hash) .start⟩
  | blocks peerId page connected hconnected =>
      rw [(nextPage_core connected.node peerId page).window, hconnected,
        connectIfProgressed_window]
      exact node.handleBatch_window env page

omit [Primitives] in
theorem drained_window (env : Env) (node : Node) : (node.drained env).window = node.window :=
  Prod.ext (node.drained_seenBlocks env) (node.drained_seenBlocksOrder env)

theorem onTick_window (env : Env) (node : Node) :
    ∃ out, Run (enter MAX_SEEN_BLOCKS) node.window (node.markCalls (env, .tick))
      (node.onTick env).node.window out := by
  have hcase := node.onTick_cases env
  unfold markCalls
  dsimp only
  generalize node.onTick env = reaction at hcase ⊢
  cases hcase with
  | waited consensus hconsensus hno =>
      rw [List.drop_length]
      exact ⟨[], .start⟩
  | keyless hturn htxs hbuild =>
      rw [drained_chain, List.drop_length, drained_window]
      exact ⟨[], .start⟩
  | refused candidate hturn htxs hbuild hbad =>
      rw [drained_chain, List.drop_length, drained_window]
      exact ⟨[], .start⟩
  | proposed candidate hturn htxs hbuild hok =>
      have hchain : (((node.drained env).grow env candidate).markSeenBlock
          candidate.hash).2.chain.blocks = node.chain.blocks ++ [candidate] := by
        rw [markSeenBlock_grow]
        show ((node.drained env).markSeenBlock candidate.hash).2.chain.blocks ++ _ = _
        by_cases hmem : candidate.hash ∈ (node.drained env).seenBlocks
        · rw [markSeenBlock_of_mem hmem, drained_chain]
        · rw [markSeenBlock_of_not_mem hmem, mark_chain, drained_chain]
      have henter := enter_window ((node.drained env).grow env candidate) candidate.hash
      rw [show ((node.drained env).grow env candidate).window = node.window from
        node.drained_window env] at henter
      rw [hchain, List.drop_left]
      exact ⟨_, Run.cons henter .start⟩

/-- A turn changes the window by its calls of `mark_seen_block` and in no other
way. -/
theorem step_window (node : Node) (i : Env × Input) :
    Run (enter MAX_SEEN_BLOCKS) node.window (node.markCalls i)
      (node.step i.1 i.2).node.window (node.newlyMarked i) := by
  have hturn : ∃ out, Run (enter MAX_SEEN_BLOCKS) node.window (node.markCalls i)
      (node.step i.1 i.2).node.window out := by
    obtain ⟨env, input⟩ := i
    cases input with
    | message m => exact node.onMessage_window env m
    | tick => exact node.onTick_window env
  obtain ⟨out, hrun⟩ := hturn
  -- the calls alone, from the same window, lead to the same window
  obtain ⟨last, marked, hmarking⟩ := node.exists_run_marking (node.markCalls i)
  have hmarked : node.newlyMarked i = marked := by
    unfold newlyMarked finish
    rw [hmarking.exec_eq]
    rfl
  obtain ⟨-, rfl⟩ := hrun.unique (run_marking_window hmarking)
  rw [hmarked]
  exact hrun

/-! ## Whole runs -/

theorem nextMarks_eq_some {node last : Node} {i : Env × Input} {out : List Hash32Type}
    (h : node.nextMarks i = some (last, out)) :
    last = (node.step i.1 i.2).node ∧ out = node.newlyMarked i := by
  obtain ⟨after, hnext, heq⟩ := Option.map_eq_some_iff.mp h
  obtain ⟨rfl, rfl⟩ := Prod.mk.injEq _ _ _ _ ▸ heq
  exact ⟨(next_eq_some hnext).1, rfl⟩

/-- The states of a node whose window was filled from the empty one, by calls of
`mark_seen_block` alone or by the turns of a run, and what was newly marked on
the way there. -/
inductive Marked (netId : UInt32) (seed : Seed) (chain : BlockChain)
    (consensus : PoAConsensus) (node : Node) (marked : List Hash32Type) : Prop where
  | calls (hashes : List Hash32Type)
      (hrun : Run marking (Node.new netId seed chain consensus) hashes node marked)
  | turns (inputs : List (Env × Input))
      (hrun : Run nextMarks (Node.new netId seed chain consensus) inputs node marked)

/-- In all of them, the window of seen blocks holds the hashes that were newly
marked last. -/
theorem Marked.exactWindow {netId : UInt32} {seed : Seed} {chain : BlockChain}
    {consensus : PoAConsensus} {node : Node} {marked : List Hash32Type}
    (h : Marked netId seed chain consensus node marked) :
    ExactWindow MAX_SEEN_BLOCKS node.seenBlocks node.seenBlocksOrder marked := by
  have hempty : ExactWindow MAX_SEEN_BLOCKS (∅ : Finset Hash32Type) [] [] := .empty _
  cases h with
  | calls hashes hrun => exact hempty.run (run_marking_window hrun)
  | turns inputs hrun =>
      induction hrun with
      | start => exact hempty
      | step _ hnext ih =>
          rename_i inputs before outputs i last out _
          obtain ⟨rfl, rfl⟩ := nextMarks_eq_some hnext
          have hbefore : ExactWindow MAX_SEEN_BLOCKS before.window.1 before.window.2
              outputs := ih
          exact hbefore.run (before.step_window i)

omit [Primitives] in
/-- What `mark_seen_block` answers in a state with an exact window. -/
theorem markSeenBlock_false_iff {node : Node} {marked : List Hash32Type}
    (h : ExactWindow MAX_SEEN_BLOCKS node.seenBlocks node.seenBlocksOrder marked)
    (hash : Hash32Type) :
    ((node.markSeenBlock hash).1 = false ↔ hash ∈ recent MAX_SEEN_BLOCKS marked) ∧
      ((node.markSeenBlock hash).1 = false → (node.markSeenBlock hash).2 = node) := by
  rw [← h.mem_iff]
  by_cases hmem : hash ∈ node.seenBlocks
  · rw [markSeenBlock_of_mem hmem]
    simp [hmem]
  · rw [markSeenBlock_of_not_mem hmem]
    simp [hmem]

end Node

namespace Blockchain.MemPool

variable [Primitives]

theorem run_exactWindow {calls : List PoolCall} {pool : MemPool} {events : List PoolEvent}
    (hrun : Run next new calls pool events) :
    ExactWindow MAX_SEEN pool.seen pool.seenOrder
      ((acceptedOf events).map Transaction.hash) :=
  exactWindow_iff.mpr ⟨(run_windowed hrun).inStep, (run_windowed hrun).seenOrder_eq⟩

/-- What `push` answers in a state with an exact window. -/
theorem push_true_iff {pool : MemPool} {accepted : List Hash32Type}
    (h : ExactWindow MAX_SEEN pool.seen pool.seenOrder accepted) (trx : Transaction) :
    ((pool.push trx).1 = true ↔
      pool.queue.length < MAX_MEMPOOL ∧ trx.hash ∉ recent MAX_SEEN accepted) ∧
    ((pool.push trx).1 = false → (pool.push trx).2 = pool) := by
  rw [← h.mem_iff]
  by_cases hfull : MAX_MEMPOOL ≤ pool.queue.length
  · have hpush : pool.push trx = (false, pool) := if_pos hfull
    rw [hpush]
    simp [hfull]
  by_cases hmem : trx.hash ∈ pool.seen
  · have hpush : pool.push trx = (false, pool) := by
      unfold push
      rw [if_neg hfull]
      exact if_pos hmem
    rw [hpush]
    simp [hmem]
  · rw [push_of_room (by omega) hmem]
    simp [Nat.not_le.mp hfull, hmem]

end Blockchain.MemPool

variable [Primitives]

/-- Both windows are exact in every reachable state, and their answers follow
from what they hold; an answer of false changes nothing. -/
theorem windows_exact :
    (∀ (calls : List PoolCall) (pool : MemPool) (events : List PoolEvent),
      Run MemPool.next MemPool.new calls pool events →
        ExactWindow MAX_SEEN pool.seen pool.seenOrder
          ((acceptedOf events).map Transaction.hash) ∧
        ∀ trx : Transaction,
          ((pool.push trx).1 = true ↔ pool.queue.length < MAX_MEMPOOL ∧
            trx.hash ∉ recent MAX_SEEN ((acceptedOf events).map Transaction.hash)) ∧
          ((pool.push trx).1 = false → (pool.push trx).2 = pool)) ∧
    (∀ (netId : UInt32) (seed : Seed) (chain : BlockChain) (consensus : PoAConsensus)
      (node : Node) (marked : List Hash32Type),
      Node.Marked netId seed chain consensus node marked →
        ExactWindow MAX_SEEN_BLOCKS node.seenBlocks node.seenBlocksOrder marked ∧
        ∀ h : Hash32Type,
          ((node.markSeenBlock h).1 = false ↔ h ∈ recent MAX_SEEN_BLOCKS marked) ∧
          ((node.markSeenBlock h).1 = false → (node.markSeenBlock h).2 = node)) := by
  constructor
  · intro calls pool events hrun
    have hwindow := MemPool.run_exactWindow hrun
    exact ⟨hwindow, MemPool.push_true_iff hwindow⟩
  · intro netId seed chain consensus node marked hmarked
    exact ⟨hmarked.exactWindow, Node.markSeenBlock_false_iff hmarked.exactWindow⟩

end B4n

namespace B4n.Blockchain.Sample

open B4n.Lib Transport

/-- The second push is refused. -/
private def repeatedPush : List PoolCall :=
  [.push (trx 1 "tea"), .push (trx 1 "tea"), .push (trx 2 "tea")]

private theorem repeatedPush_run : ∃ pool events, Run MemPool.next MemPool.new
    repeatedPush pool events ∧ acceptedOf events = [trx 1 "tea", trx 2 "tea"] :=
  exists_run (by decide +kernel)

/-- The same block comes twice. -/
private def repeatedBlock : List (Env × Input) :=
  [(env 10, .message (.net 7 (.block genesis))),
    (env 20, .message (.net 8 (.blocks [genesis, block genesis [] 0 0 1])))]

private theorem repeatedBlock_run : ∃ last marked, Run Node.nextMarks
    (node 1 1 (config [1] 8) config_one_ok) repeatedBlock last marked ∧
      marked = [genesis.hash, (block genesis [] 0 0 1).hash] :=
  exists_run (by decide +kernel)

theorem windows_exact_repeated :
    (∃ pool events, Run MemPool.next MemPool.new repeatedPush pool events ∧
      ((pool.push (trx 2 "tea")).1 = true ↔ pool.queue.length < MAX_MEMPOOL ∧
        (trx 2 "tea").hash ∉
          recent MAX_SEEN ([trx 1 "tea", trx 2 "tea"].map Transaction.hash))) ∧
    ∃ last : Node, last.seenBlocksOrder = [genesis.hash, (block genesis [] 0 0 1).hash] ∧
      (last.markSeenBlock genesis.hash).1 = false := by
  obtain ⟨pool, events, hpool, haccepted⟩ := repeatedPush_run
  obtain ⟨last, marked, hlast, rfl⟩ := repeatedBlock_run
  have hnode := windows_exact.2 _ _ _ _ _ _ (.turns _ hlast)
  refine ⟨⟨pool, events, hpool, ?_⟩, last, ?_, ?_⟩
  · rw [← haccepted]
    exact ((windows_exact.1 _ _ _ hpool).2 _).1
  · rw [hnode.1.order_eq]
    exact recent_eq_self (by decide)
  · exact (hnode.2 _).1.mpr (by decide +kernel)

end B4n.Blockchain.Sample
