import B4n.Blockchain.Crypto
import B4n.Lib.FifoWindow

/-!
# The pool of waiting transactions

`blockchain/mempool.rs`: a queue of transactions for the next blocks, and a
bounded window of the hashes accepted most recently.  The window is what keeps
a transaction from being queued twice; `removeIncluded` takes transactions out
of the queue but leaves the window alone.
-/

namespace B4n.Blockchain

open B4n.Lib

/-- `MAX_MEMPOOL` -/
def MAX_MEMPOOL : Nat := 10000

/-- `MAX_SEEN` -/
def MAX_SEEN : Nat := 50000

/-- `MemPool` -/
structure MemPool where
  queue : List Transaction
  seen : Finset Hash32Type
  seenOrder : List Hash32Type

namespace MemPool

/-- `MemPool::new` -/
def new : MemPool where
  queue := []
  seen := ∅
  seenOrder := []

/-- `pop_many` -/
def popMany (pool : MemPool) (count : Nat) : List Transaction × MemPool :=
  let n := min count pool.queue.length
  (pool.queue.take n, { pool with queue := pool.queue.drop n })

variable [Primitives]

/-- `push` -/
def push (pool : MemPool) (transaction : Transaction) : Bool × MemPool :=
  if MAX_MEMPOOL ≤ pool.queue.length then (false, pool)
  else
    let transactionHash := transaction.hash
    if transactionHash ∈ pool.seen then (false, pool)
    else
      let window := remember MAX_SEEN pool.seen pool.seenOrder transactionHash
      (true,
        { queue := pool.queue ++ [transaction]
          seen := window.1
          seenOrder := window.2 })

/-- `remove_included` -/
def removeIncluded (pool : MemPool) (included : List Transaction) : MemPool :=
  if included = [] ∨ pool.queue = [] then pool
  else
    let includedHashes := included.map Transaction.hash
    { pool with
      queue := pool.queue.filter fun trx => trx.hash ∉ includedHashes }

/-- Cleaning up leaves the transactions that were not included, in order. -/
theorem removeIncluded_queue (pool : MemPool) (included : List Transaction) :
    (pool.removeIncluded included).queue =
      pool.queue.filter fun trx => trx.hash ∉ included.map Transaction.hash := by
  unfold removeIncluded
  split
  · rename_i hskip
    rcases hskip with rfl | hempty
    · simp
    · simp [hempty]
  · rfl

/-! ## Bounds -/

omit [Primitives] in
/-- The queue and the window are within their capacities, and the two
containers of the window agree. -/
structure Within (pool : MemPool) : Prop where
  queue_le : pool.queue.length ≤ MAX_MEMPOOL
  inStep : InStep pool.seen pool.seenOrder
  seenOrder_le : pool.seenOrder.length ≤ MAX_SEEN

omit [Primitives] in
theorem new_within : Within new :=
  ⟨Nat.zero_le _, InStep.empty, Nat.zero_le _⟩

theorem push_within {pool : MemPool} (h : Within pool)
    (transaction : Transaction) : Within (pool.push transaction).2 := by
  unfold push
  by_cases hfull : MAX_MEMPOOL ≤ pool.queue.length
  · rw [if_pos hfull]
    exact h
  rw [if_neg hfull]
  dsimp only
  by_cases hseen : transaction.hash ∈ pool.seen
  · rw [if_pos hseen]
    exact h
  rw [if_neg hseen]
  constructor
  · show (pool.queue ++ [transaction]).length ≤ MAX_MEMPOOL
    rw [List.length_append, List.length_singleton]
    omega
  · exact remember_inStep MAX_SEEN h.inStep hseen
  · exact length_remember_le MAX_SEEN h.inStep hseen

omit [Primitives] in
theorem popMany_within {pool : MemPool} (h : Within pool) (count : Nat) :
    Within (pool.popMany count).2 := by
  refine ⟨?_, h.inStep, h.seenOrder_le⟩
  show (pool.queue.drop (min count pool.queue.length)).length ≤ MAX_MEMPOOL
  rw [List.length_drop]
  have hle := h.queue_le
  omega

theorem removeIncluded_within {pool : MemPool} (h : Within pool)
    (included : List Transaction) : Within (pool.removeIncluded included) := by
  unfold removeIncluded
  split
  · exact h
  · exact ⟨(List.length_filter_le _ _).trans h.queue_le, h.inStep,
      h.seenOrder_le⟩

end MemPool

end B4n.Blockchain
