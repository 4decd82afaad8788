import B4n.Node.Attachment
import B4n.Node.Sample

/-!
# Cleaning up the queue

A transaction on the chain has to leave the queue of the pool, or it will be
proposed again.  `handle_incoming_block` sees to this for the block it appends;
`try_connect_orphans` appends blocks and leaves the queue alone.

## Main results

* `onNet_cleaned_iff` — a `Block` or `Blocks` message leaves in the queue exactly
  what its blocks do not contain, if and only if no orphan that attaches contains
  a queued transaction.
-/

namespace B4n

open Lib Blockchain Transport

variable [Primitives]

/-- The transaction is in none of the blocks. -/
def absent (blocks : List Block) (trx : Transaction) : Bool :=
  blocks.all fun b => !(b.transactions.map Transaction.hash).contains trx.hash

theorem absent_iff {blocks : List Block} {trx : Transaction} :
    absent blocks trx = true ↔
      ∀ b ∈ blocks, trx.hash ∉ b.transactions.map Transaction.hash := by
  simp [absent, List.contains_eq_mem]

theorem absent_append (blocks more : List Block) (trx : Transaction) :
    absent (blocks ++ more) trx = (absent blocks trx && absent more trx) := by
  simp [absent]

namespace Node

/-- The chain has grown by these blocks, and the queue has lost what they
contain. -/
structure CleanedBy (node : Node) (added : List Block) (last : Node) : Prop where
  blocks_eq : last.chain.blocks = node.chain.blocks ++ added
  queue_eq : last.mempool.queue =
    node.mempool.queue.filter fun trx => absent added trx

theorem CleanedBy.of_same {node last : Node} (hchain : last.chain = node.chain)
    (hpool : last.mempool = node.mempool) : CleanedBy node [] last where
  blocks_eq := by rw [hchain, List.append_nil]
  queue_eq := by
    rw [hpool]
    exact (List.filter_eq_self.mpr (by simp [absent])).symm

theorem CleanedBy.trans {node mid last : Node} {added more : List Block}
    (h : CleanedBy node added mid) (h' : CleanedBy mid more last) :
    CleanedBy node (added ++ more) last where
  blocks_eq := by rw [h'.blocks_eq, h.blocks_eq, List.append_assoc]
  queue_eq := by
    rw [h'.queue_eq, h.queue_eq, List.filter_filter]
    apply List.filter_congr
    intro trx _
    rw [absent_append, Bool.and_comm]

/-! ## The blocks that are handled directly -/

theorem handleIncomingBlock_cleaned (env : Env) (node : Node) (b : Block) :
    ∃ added, CleanedBy node added (node.handleIncomingBlock env b).node := by
  have hcase := node.handleIncomingBlock_cases env b
  generalize node.handleIncomingBlock env b = handled at hcase ⊢
  cases hcase with
  | seen hseen => exact ⟨[], .of_same rfl rfl⟩
  | stale hnew hle => exact ⟨[], .of_same rfl rfl⟩
  | rejected hnew hindex hprev hbad => exact ⟨[], .of_same rfl rfl⟩
  | appended hnew hok =>
      refine ⟨[b], rfl, ?_⟩
      show (node.mempool.removeIncluded b.transactions).queue = _
      rw [MemPool.removeIncluded_queue]
      apply List.filter_congr
      intro trx _
      unfold absent
      rw [List.all_cons, List.all_nil, Bool.and_true, decide_not,
        List.contains_eq_mem]
  | orphaned hnew hlt hgap =>
      exact ⟨[], .of_same (orphanAndSync_chain env _ b _)
        (orphanAndSync_mempool env _ b _)⟩

theorem handleBatch_cleaned (env : Env) (node : Node) (page : List Block) :
    ∃ added, CleanedBy node added (node.handleBatch env page).node := by
  induction page generalizing node with
  | nil => exact ⟨[], .of_same rfl rfl⟩
  | cons b page ih =>
      obtain ⟨added, hfirst⟩ := node.handleIncomingBlock_cleaned env b
      obtain ⟨more, hrest⟩ := ih (node.handleIncomingBlock env b).node
      exact ⟨added ++ more, hfirst.trans hrest⟩

/-! ## The orphans that attach -/

/-- The chain has grown, and the queue has lost what the new blocks contain. -/
def Cleaned (node last : Node) : Prop := ∃ added, CleanedBy node added last

/-- When the turn calls `try_connect_orphans`, no orphan that attaches contains
a queued transaction. -/
def NoneQueued (env : Env) (node : Node) (input : Input) : Prop :=
  ∀ call, node.connectCall env input = some call → ∀ a ∈ call.attachments,
    ∀ trx ∈ call.mempool.queue,
      trx.hash ∉ a.block.transactions.map Transaction.hash

/-- The connection loop leaves the queue as it is. -/
theorem tryConnectOrphans_cleaned_iff (env : Env) (node : Node) :
    CleanedBy node (node.attachments.map Attachment.block)
        (node.tryConnectOrphans env).node ↔
      ∀ a ∈ node.attachments, ∀ trx ∈ node.mempool.queue,
        trx.hash ∉ a.block.transactions.map Transaction.hash := by
  have hattached := node.tryConnectOrphans_attached env
  constructor
  · intro h a ha trx htrx
    have hqueue := h.queue_eq
    rw [hattached.mempool_eq] at hqueue
    rw [hqueue, List.mem_filter] at htrx
    exact absent_iff.mp htrx.2 a.block (List.mem_map_of_mem ha)
  · intro h
    refine ⟨hattached.blocks_eq, ?_⟩
    rw [hattached.mempool_eq]
    refine (List.filter_eq_self.mpr ?_).symm
    intro trx htrx
    rw [absent_iff]
    intro b hb
    obtain ⟨a, ha, rfl⟩ := List.mem_map.mp hb
    exact h a ha trx htrx

/-- If the queue was cleaned up for some of the new blocks, it is cleaned up for
all of them exactly if it is for the rest. -/
theorem CleanedBy.cleaned_iff {node mid last : Node} {added more : List Block}
    (h : CleanedBy node added mid)
    (hblocks : last.chain.blocks = mid.chain.blocks ++ more) :
    Cleaned node last ↔ CleanedBy mid more last := by
  constructor
  · rintro ⟨all, hall⟩
    refine ⟨hblocks, ?_⟩
    have hsame : added ++ more = all := by
      apply List.append_cancel_left
      rw [← hall.blocks_eq, hblocks, h.blocks_eq, List.append_assoc]
    rw [hall.queue_eq, h.queue_eq, List.filter_filter, ← hsame]
    apply List.filter_congr
    intro trx _
    rw [absent_append, Bool.and_comm]
  · intro hmore
    exact ⟨_, h.trans hmore⟩

theorem connectIfProgressed_cleaned_iff (env : Env) (node : Node)
    (input : Input) :
    Cleaned node (connectIfProgressed env
        (node.handleBatch env input.incoming)).node ↔
      NoneQueued env node input := by
  obtain ⟨direct, hdirect⟩ := node.handleBatch_cleaned env input.incoming
  unfold connectIfProgressed NoneQueued connectCall
  dsimp only
  split
  · rw [hdirect.cleaned_iff (tryConnectOrphans_attached env _).blocks_eq,
      tryConnectOrphans_cleaned_iff]
    simp
  · simp only [reduceCtorEq, false_implies, implies_true, iff_true]
    exact ⟨direct, hdirect⟩

/-- A `Block` or `Blocks` message leaves in the queue exactly the transactions
that are in none of the blocks it appended, if and only if no orphan that
attached contains a transaction that was still queued. -/
theorem onNet_cleaned_iff (env : Env) (node : Node) (peerId : UInt32) :
    (∀ b : Block, Cleaned node (node.onNet env peerId (.block b)).node ↔
      NoneQueued env node (.message (.net peerId (.block b)))) ∧
    ∀ page : List Block,
      Cleaned node (node.onNet env peerId (.blocks page)).node ↔
        NoneQueued env node (.message (.net peerId (.blocks page))) := by
  constructor
  · intro b
    rw [← connectIfProgressed_cleaned_iff]
    show Cleaned node (connectIfProgressed env _).node ↔ _
    rw [connectIfProgressed_singleton]
    rfl
  · intro page
    rw [← connectIfProgressed_cleaned_iff]
    -- paging touches neither the chain nor the queue
    have hcore := nextPage_core
      (connectIfProgressed env (node.handleBatch env page)).node peerId page
    have hpool := nextPage_mempool
      (connectIfProgressed env (node.handleBatch env page)).node peerId page
    constructor
    · rintro ⟨added, hblocks, hqueue⟩
      refine ⟨added, ?_, ?_⟩
      · rw [← hblocks]
        exact congrArg BlockChain.blocks hcore.chain.symm
      · rw [← hqueue]
        exact congrArg MemPool.queue hpool.symm
    · rintro ⟨added, hblocks, hqueue⟩
      refine ⟨added, ?_, ?_⟩
      · rw [← hblocks]
        exact congrArg BlockChain.blocks hcore.chain
      · rw [← hqueue]
        exact congrArg MemPool.queue hpool

end Node

end B4n

namespace B4n.Blockchain.Sample

open B4n.Lib Transport

private def opening : Block := block genesis [trx 1 "tea"] 0 0 1

private def waited : Block := block opening [trx 2 "tea"] 0 0 1

/-- A transaction is queued, and a block with it arrives before its parent. -/
private def waitedFirst : List (Env × Input) :=
  [(env 10, .message (.localTrx (trx 2 "tea"))),
    (env 20, .message (.net 7 (.block waited)))]

/-- When the parent comes, both blocks are appended, and the transaction of the
second is still queued. -/
theorem waitedFirst_stays : ∃ last effects, Run Node.next
    (node 1 1 (config [1] 8) config_one_ok) waitedFirst last effects ∧
      (last.onMessage (env 30) (.net 7 (.block opening))).node.chain.blocks =
        last.chain.blocks ++ [opening, waited] ∧
      trx 2 "tea" ∈ waited.transactions ∧
      (last.onMessage (env 30) (.net 7 (.block opening))).node.mempool.queue =
        [trx 2 "tea"] :=
  exists_run (by decide +kernel)

end B4n.Blockchain.Sample
