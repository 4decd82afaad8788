import B4n.Node.Bookkeeping
import B4n.Node.Sample

/-!
# The caches are bounded

A node answers to anyone, so what it remembers of the traffic must not grow
with it: the orphan pool, the hashes of seen blocks, the queue of transactions
and the hashes of seen transactions.  Each of them has a capacity, which is
checked against a counter or a set beside the container that is meant.

## Main results

* `step_mempool` — what the operations of the pool keep, every turn keeps.
* `run_bounded` — along every run every cache is within its capacity.
-/

namespace B4n

open Lib Blockchain Transport

namespace Node

/-- Every cache is within its capacity. -/
structure Bounded (node : Node) : Prop where
  held_le : held node.orphansByPrev ≤ MAX_ORPHANS_TOTAL
  bucket : ∀ key vec, node.orphansByPrev.lookup key = some vec →
    1 ≤ vec.length ∧ vec.length ≤ MAX_ORPHANS_PER_PREV
  seenBlocks_le : node.seenBlocks.card ≤ MAX_SEEN_BLOCKS
  seenBlocksOrder_eq : node.seenBlocksOrder.length = node.seenBlocks.card
  queue_le : node.mempool.queue.length ≤ MAX_MEMPOOL
  seen_le : node.mempool.seen.card ≤ MAX_SEEN
  seenOrder_eq : node.mempool.seenOrder.length = node.mempool.seen.card

/-! ## The pool of transactions -/

section Mempool

variable [Primitives] {P : MemPool → Prop}
  (hpush : ∀ pool trx, P pool → P (pool.push trx).2)
  (hpop : ∀ pool count, P pool → P (pool.popMany count).2)
  (hremove : ∀ pool included, P pool → P (pool.removeIncluded included))

include hpush

theorem acceptTrx_mempool (env : Env) {node : Node} (h : P node.mempool)
    (trx : Transaction) : P (node.acceptTrx env trx).node.mempool := by
  rw [acceptTrx_pool]
  exact hpush _ trx h

omit hpush
include hremove

/-- Of the elementary steps only the receipt of a block touches the pool. -/
theorem IntakeStep.mempool {env : Env} {incoming : List Block}
    {node last : Node} {effects : List Effect} (h : P node.mempool)
    (hstep : IntakeStep env incoming node last effects) : P last.mempool := by
  cases hstep with
  | mark b hb hnew => exact h
  | receive b hb hok => exact hremove _ b.transactions h
  | connect vec pos hvec hok => exact h
  | reorder orphans hsame hheld => exact h
  | orphan b hb hlt =>
      rw [putOrphan_mempool]
      exact h
  | sync pid start hpid =>
      rw [startSync_mempool]
      exact h

theorem Intake.mempool {env : Env} {incoming : List Block}
    {node last : Node} {effects : List Effect} (h : P node.mempool)
    (hintake : Intake env incoming node last effects) : P last.mempool :=
  hintake.invariant (P := fun node : Node => P node.mempool)
    (fun _ _ _ hnode hstep => hstep.mempool hremove hnode) h

include hpush

theorem onMessage_mempool (env : Env) {node : Node} (h : P node.mempool)
    (m : NodeMessage) : P (node.onMessage env m).node.mempool := by
  have hcase := node.onMessage_cases env m
  generalize node.onMessage env m = reaction at hcase ⊢
  cases hcase with
  | ignored m hnone => exact h
  | answered peerId msg reply hnone hserves => exact h
  | trx m trx hnone => exact acceptTrx_mempool hpush env h trx
  | addPeer peerId sender => exact h
  | removePeer peerId =>
      show P (node.removePeer peerId).mempool
      unfold removePeer
      dsimp only
      split
      · exact h
      · split <;> exact h
  | started peerId height hash start =>
      rw [startSync_mempool]
      exact h
  | block peerId b =>
      exact (connectIfProgressed_intake
        (node.handleIncomingBlock_intake env b)).mempool hremove h
  | blocks peerId page connected hconnected =>
      have hmid : P connected.node.mempool := by
        rw [hconnected]
        exact (connectIfProgressed_intake
          (node.handleBatch_intake env page)).mempool hremove h
      show P (connected.node.nextPage peerId page).node.mempool
      rw [nextPage_mempool]
      exact hmid

omit hpush hremove
include hpop

theorem onTick_mempool (env : Env) {node : Node} (h : P node.mempool) :
    P (node.onTick env).node.mempool := by
  have hdrained : P (node.drained env).mempool := hpop _ _ h
  have hcase := node.onTick_cases env
  generalize node.onTick env = reaction at hcase ⊢
  cases hcase with
  | waited consensus hconsensus hno => exact h
  | keyless hturn htxs hbuild => exact hdrained
  | refused candidate hturn htxs hbuild hbad => exact hdrained
  | proposed candidate hturn htxs hbuild hok =>
      unfold markSeenBlock
      split <;> exact hdrained

include hpush hremove

/-- What pushing, popping and cleaning up keep, every turn keeps. -/
theorem step_mempool (env : Env) {node : Node} (h : P node.mempool)
    (input : Input) : P (node.step env input).node.mempool := by
  cases input with
  | message m => exact onMessage_mempool hpush hremove env h m
  | tick => exact onTick_mempool hpop env h

end Mempool

/-! ## The window of seen blocks and the orphan pool -/

/-- The counter of the orphan pool, its buckets and the window of seen blocks
are within their capacities. -/
structure Room (node : Node) : Prop where
  orphansTotal_le : node.orphansTotal ≤ MAX_ORPHANS_TOTAL
  filled : Filled MAX_ORPHANS_PER_PREV node.orphansByPrev
  seenBlocksOrder_le : node.seenBlocksOrder.length ≤ MAX_SEEN_BLOCKS

theorem SameCore.room {node last : Node} (hcore : SameCore node last)
    (h : Room node) : Room last where
  orphansTotal_le := by
    rw [hcore.orphansTotal]
    exact h.orphansTotal_le
  filled := by
    rw [hcore.orphansByPrev]
    exact h.filled
  seenBlocksOrder_le := by
    rw [hcore.seenBlocksOrder]
    exact h.seenBlocksOrder_le

theorem mark_room {node : Node} (hbooks : Bookkeeping node) (h : Room node)
    {hash : Hash32Type} (hnew : hash ∉ node.seenBlocks) :
    Room (node.mark hash) :=
  ⟨h.orphansTotal_le, h.filled,
    length_remember_le MAX_SEEN_BLOCKS hbooks.inStep hnew⟩

/-- A bucket takes a block only while it has room. -/
theorem putOrphan_room {node : Node} (h : Room node) (block : Block) :
    Room (node.putOrphan block) := by
  unfold putOrphan
  by_cases htotal : MAX_ORPHANS_TOTAL ≤ node.orphansTotal
  · rw [if_pos htotal]
    exact h
  rw [if_neg htotal]
  dsimp only
  split
  · exact h
  · rename_i hroom
    refine ⟨?_, ?_, h.seenBlocksOrder_le⟩
    · show node.orphansTotal + 1 ≤ MAX_ORPHANS_TOTAL
      omega
    · apply h.filled.insert
      · rw [List.length_append, List.length_singleton]
        omega
      · rw [List.length_append, List.length_singleton]
        omega

/-- Leftovers never make an empty bucket, nor one that is too long. -/
theorem refile_filled {orphans : HashMap Hash32Type (List Block)}
    (h : Filled MAX_ORPHANS_PER_PREV orphans) (newHash : Hash32Type)
    (vec : List Block) :
    Filled MAX_ORPHANS_PER_PREV (refile orphans newHash vec) := by
  unfold refile
  split
  · exact h
  · rename_i hvec
    have hpos : 0 < vec.length := List.length_pos_of_ne_nil hvec
    have hle := h.length_getD_le newHash
    have hlength : (fillBucket ((orphans.lookup newHash).getD []) vec).length =
        ((orphans.lookup newHash).getD []).length +
          min (MAX_ORPHANS_PER_PREV -
            ((orphans.lookup newHash).getD []).length) vec.length := by
      rw [fillBucket_eq, List.length_append, List.length_take]
    have hcap : 0 < MAX_ORPHANS_PER_PREV := by decide
    apply h.insert
    · rw [hlength]
      omega
    · rw [hlength]
      omega

variable [Primitives]

theorem IntakeStep.room {env : Env} {incoming : List Block}
    {node last : Node} {effects : List Effect} (hbooks : Bookkeeping node)
    (h : Room node) (hstep : IntakeStep env incoming node last effects) :
    Room last := by
  cases hstep with
  | mark b hb hnew => exact mark_room hbooks h hnew
  | receive b hb hok =>
      exact ⟨h.orphansTotal_le, h.filled, h.seenBlocksOrder_le⟩
  | connect vec pos hvec hok =>
      refine ⟨?_, refile_filled (h.filled.erase _) _ _, h.seenBlocksOrder_le⟩
      show node.orphansTotal - 1 ≤ MAX_ORPHANS_TOTAL
      have hle := h.orphansTotal_le
      omega
  | reorder orphans hsame hheld =>
      refine ⟨h.orphansTotal_le, ?_, h.seenBlocksOrder_le⟩
      intro key vec hvec
      exact h.filled key vec ((hsame key).symm.trans hvec)
  | orphan b hb hlt => exact putOrphan_room h b
  | sync pid start hpid => exact (node.startSync_core pid start).room h

theorem onMessage_room {env : Env} {node : Node} (hbooks : Bookkeeping node)
    (h : Room node) (m : NodeMessage) : Room (node.onMessage env m).node := by
  obtain ⟨mid, effects, rest, hintake, hcore, -, -⟩ := node.onMessage_spec env m
  apply hcore.room
  have hmid : Bookkeeping mid ∧ Room mid := by
    apply hintake.invariant (P := fun node => Bookkeeping node ∧ Room node) _
      ⟨hbooks, h⟩
    intro s t out hs hstep
    exact ⟨hstep.bookkeeping hs.1, hstep.room hs.1 hs.2⟩
  exact hmid.2

omit [Primitives] in
theorem drained_room {node : Node} (h : Room node) (env : Env) :
    Room (node.drained env) := by
  obtain ⟨consensus, pool, hdrained, -, -⟩ := node.drained_eq env
  rw [hdrained]
  exact ⟨h.orphansTotal_le, h.filled, h.seenBlocksOrder_le⟩

theorem onTick_room {env : Env} {node : Node} (hbooks : Bookkeeping node)
    (h : Room node) : Room (node.onTick env).node := by
  have hdrained := drained_room h env
  have hcase := node.onTick_cases env
  generalize node.onTick env = reaction at hcase ⊢
  cases hcase with
  | waited consensus hconsensus hno =>
      exact ⟨h.orphansTotal_le, h.filled, h.seenBlocksOrder_le⟩
  | keyless hturn htxs hbuild => exact hdrained
  | refused candidate hturn htxs hbuild hbad => exact hdrained
  | proposed candidate hturn htxs hbuild hok =>
      have hgrown : Room ((node.drained env).grow env candidate) :=
        ⟨hdrained.orphansTotal_le, hdrained.filled, hdrained.seenBlocksOrder_le⟩
      have hbooks' : Bookkeeping ((node.drained env).grow env candidate) :=
        (drained_bookkeeping hbooks env).of_same rfl rfl rfl rfl rfl
      by_cases hseen : candidate.hash ∈
          ((node.drained env).grow env candidate).seenBlocks
      · rw [markSeenBlock_of_mem hseen]
        exact hgrown
      · rw [markSeenBlock_of_not_mem hseen]
        exact mark_room hbooks' hgrown hseen

/-! ## Runs -/

/-- Whatever a node receives, its caches stay within their capacities. -/
theorem run_bounded {netId : UInt32} {seed : Seed} {chain : BlockChain}
    {consensus : PoAConsensus} {node : Node} {inputs : List (Env × Input)}
    {effects : List Effect}
    (hrun : Run Node.next (Node.new netId seed chain consensus) inputs node
      effects) : Bounded node := by
  have hinv : Bookkeeping node ∧ Room node ∧ node.mempool.Within := by
    apply hrun.invariant
      (P := fun node => Bookkeeping node ∧ Room node ∧ node.mempool.Within)
    · exact ⟨⟨InStep.empty, Nat.le_refl _, rfl⟩,
        ⟨Nat.zero_le _, filled_empty _, Nat.zero_le _⟩, MemPool.new_within⟩
    · rintro s ⟨env, input⟩ t out ⟨hbooks, hroom, hwithin⟩ hnext
      obtain ⟨rfl, -, -⟩ := next_eq_some hnext
      have hpool : ((s.step env input).node.mempool).Within :=
        step_mempool (P := MemPool.Within)
          (fun _ trx h => MemPool.push_within h trx)
          (fun _ count h => MemPool.popMany_within h count)
          (fun _ txs h => MemPool.removeIncluded_within h txs) env hwithin input
      cases input with
      | message m =>
          exact ⟨onMessage_bookkeeping hbooks m, onMessage_room hbooks hroom m,
            hpool⟩
      | tick => exact ⟨onTick_bookkeeping hbooks, onTick_room hbooks hroom, hpool⟩
  obtain ⟨hbooks, hroom, hwithin⟩ := hinv
  exact {
    held_le := hbooks.held_le.trans hroom.orphansTotal_le
    bucket := hroom.filled
    seenBlocks_le := hbooks.inStep.card_eq ▸ hroom.seenBlocksOrder_le
    seenBlocksOrder_eq := hbooks.inStep.card_eq.symm
    queue_le := hwithin.queue_le
    seen_le := hwithin.inStep.card_eq ▸ hwithin.seenOrder_le
    seenOrder_eq := hwithin.inStep.card_eq.symm }

end Node

end B4n

namespace B4n.Blockchain.Sample

open B4n.Lib Transport

/-- A block far ahead of the genesis block. -/
private def farAhead (timestamp : UInt64) : Block :=
  { genesis with
    header := { genesis.header with index := 5, timestamp := timestamp } }

/-- One orphan more than a bucket takes. -/
private def nineOrphans : List (Env × Input) :=
  [(env 10, .message (.net 7 (.blocks
    ([1, 2, 3, 4, 5, 6, 7, 8, 9].map farAhead))))]

private theorem nineOrphans_run : ∃ last effects, Run Node.next
    (node 1 1 (config [1] 8) config_one_ok) nineOrphans last effects ∧
      held last.orphansByPrev = 8 ∧ last.seenBlocks.card = 9 :=
  exists_run (by decide +kernel)

theorem run_bounded_nineOrphans :
    ∃ last : Node, held last.orphansByPrev = 8 ∧ last.seenBlocks.card = 9 ∧
      Node.Bounded last := by
  obtain ⟨last, effects, hrun, hheld, hcard⟩ := nineOrphans_run
  exact ⟨last, hheld, hcard, Node.run_bounded hrun⟩

end B4n.Blockchain.Sample
