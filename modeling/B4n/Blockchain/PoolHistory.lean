import B4n.Blockchain.MemPool
import B4n.Blockchain.Sample
import B4n.Lib.Ledger
import B4n.Lib.PrefixCode
import B4n.Lib.Runs
import Mathlib.Data.List.NodupEquivFin

/-!
# The history of the pool

Every sequence of calls of the pool's three methods is a history of a queue
that serves from the front and strikes what a block included.  The ledger of
this history says of every accepted transaction what became of it.  Equal
transactions can wait at the same time: the window that refuses repeats is
bounded, and it moves on while an entry waits.

## Main results

* `run_conserved` — what was popped, followed by the queue, is what was accepted
  without what was struck.
* `run_repeats_apart` — between two equal entries of the queue lie at least
  `MAX_SEEN` other accepted transactions.
-/

namespace B4n.Blockchain

open B4n.Lib

/-- A call of one of the pool's methods. -/
inductive PoolCall where
  | push (transaction : Transaction)
  | popMany (count : Nat)
  | removeIncluded (included : List Transaction)

/-- What a call did, as its caller sees it; a refused push did nothing. -/
inductive PoolEvent where
  | accepted (transaction : Transaction)
  | popped (transactions : List Transaction)
  | cleaned (included : List Transaction)

/-- The pushes that returned true, in order. -/
def acceptedOf (events : List PoolEvent) : List Transaction :=
  events.flatMap fun
    | .accepted transaction => [transaction]
    | _ => []

/-- The transactions that were popped, in order. -/
def poppedOf (events : List PoolEvent) : List Transaction :=
  events.flatMap fun
    | .popped transactions => transactions
    | _ => []

theorem acceptedOf_append (events more : List PoolEvent) :
    acceptedOf (events ++ more) = acceptedOf events ++ acceptedOf more := by
  simp [acceptedOf]

theorem poppedOf_append (events more : List PoolEvent) :
    poppedOf (events ++ more) = poppedOf events ++ poppedOf more := by
  simp [poppedOf]

variable [Primitives]

namespace MemPool

/-- The pool as a machine. -/
def next : Machine MemPool PoolCall PoolEvent := fun pool call =>
  match call with
  | .push transaction =>
      let pushed := pool.push transaction
      some (pushed.2, if pushed.1 then [.accepted transaction] else [])
  | .popMany count =>
      let popped := pool.popMany count
      some (popped.2, [.popped popped.1])
  | .removeIncluded included =>
      some (pool.removeIncluded included, [.cleaned included])

end MemPool

/-! ## The queue of the pool -/

/-- What an event means for the queue. -/
def PoolEvent.queueEvent : PoolEvent → QueueEvent Transaction
  | .accepted transaction => .admitted transaction
  | .popped transactions => .served transactions.length
  | .cleaned included =>
      .struck fun trx => (included.map Transaction.hash).contains trx.hash

/-- The ledger of what was accepted. -/
def history (events : List PoolEvent) : List (Entry Transaction) :=
  ledger (events.map PoolEvent.queueEvent)

theorem admittedBy_queueEvents (events : List PoolEvent) :
    admittedBy (events.map PoolEvent.queueEvent) = acceptedOf events := by
  induction events with
  | nil => rfl
  | cons e events ih =>
      rw [List.map_cons]
      show e.queueEvent.taking ++ admittedBy _ = _ ++ acceptedOf events
      rw [ih]
      cases e <;> rfl

namespace MemPool

/-- A call either changes nothing and shows nothing, or does to the queue what
its one event means. -/
theorem next_queue {pool last : MemPool} {call : PoolCall}
    {out : List PoolEvent} (h : next pool call = some (last, out)) :
    (out = [] ∧ last = pool) ∨
      ∃ e, out = [e] ∧ last.queue = e.queueEvent.apply pool.queue ∧
        poppedOf [e] = e.queueEvent.taken pool.queue := by
  cases call with
  | push transaction =>
      simp only [next, push, Option.some.injEq, Prod.mk.injEq] at h
      obtain ⟨rfl, rfl⟩ := h
      split
      · exact Or.inl ⟨rfl, rfl⟩
      · split
        · exact Or.inl ⟨rfl, rfl⟩
        · exact Or.inr ⟨_, rfl, rfl, rfl⟩
  | popMany count =>
      simp only [next, popMany, Option.some.injEq, Prod.mk.injEq] at h
      obtain ⟨rfl, rfl⟩ := h
      refine Or.inr ⟨_, rfl, ?_, ?_⟩
      · simp [PoolEvent.queueEvent, QueueEvent.apply]
      · simp [PoolEvent.queueEvent, QueueEvent.taken, poppedOf]
  | removeIncluded included =>
      simp only [next, Option.some.injEq, Prod.mk.injEq] at h
      obtain ⟨rfl, rfl⟩ := h
      refine Or.inr ⟨_, rfl, ?_, rfl⟩
      rw [removeIncluded_queue]
      apply List.filter_congr
      intro trx _
      dsimp only
      rw [decide_not, List.contains_eq_mem]

/-- The pool's queue is the queue of its history. -/
theorem run_queue {calls : List PoolCall} {pool : MemPool}
    {events : List PoolEvent} (hrun : Run next new calls pool events) :
    pool.queue = queueAfter (events.map PoolEvent.queueEvent) ∧
      poppedOf events = servedBy (events.map PoolEvent.queueEvent) := by
  refine hrun.invariant_outputs (P := fun pool events =>
    pool.queue = queueAfter (events.map PoolEvent.queueEvent) ∧
      poppedOf events = servedBy (events.map PoolEvent.queueEvent))
    ⟨rfl, rfl⟩ ?_
  rintro pool events call last out ⟨hqueue, hpopped⟩ hnext
  rcases next_queue hnext with ⟨rfl, rfl⟩ | ⟨e, rfl, hlast, htaken⟩
  · simpa using ⟨hqueue, hpopped⟩
  · rw [List.map_append, List.map_singleton, queueAfter_snoc, servedBy_snoc,
      poppedOf_append, ← hqueue, ← hpopped, htaken]
    exact ⟨hlast, rfl⟩

/-- Every accepted transaction is accounted for. -/
structure Conserved (pool : MemPool) (events : List PoolEvent) : Prop where
  accepted_eq : (history events).map Entry.item = acceptedOf events
  popped_eq : items .served (history events) = poppedOf events
  queue_eq : items .waiting (history events) = pool.queue
  popped_append_queue : poppedOf events ++ pool.queue = kept (history events)
  struck_iff : ∀ (i : Nat) (e : Entry Transaction),
    (history events)[i]? = some e →
      (e.fate = .struck ↔ ∃ before included after w,
        events = before ++ .cleaned included :: after ∧
        (history before)[i]? = some w ∧ w.item = e.item ∧ w.fate = .waiting ∧
        e.item.hash ∈ included.map Transaction.hash)

/-- A struck transaction waited when a `remove_included` listed its hash. -/
theorem history_struck_iff {events : List PoolEvent} {i : Nat}
    {e : Entry Transaction} (h : (history events)[i]? = some e) :
    e.fate = .struck ↔ ∃ before included after w,
      events = before ++ .cleaned included :: after ∧
      (history before)[i]? = some w ∧ w.item = e.item ∧ w.fate = .waiting ∧
      e.item.hash ∈ included.map Transaction.hash := by
  rw [Lib.struck_iff h]
  constructor
  · rintro ⟨before, f, after, w, heq, hw, hitem, hwaiting, hstrikes⟩
    obtain ⟨front, back, rfl, rfl, hback⟩ := List.map_eq_append_iff.mp heq
    obtain ⟨g, rest, rfl, rfl, rfl⟩ := List.map_eq_cons_iff.mp hback
    cases g with
    | accepted transaction => cases hstrikes
    | popped transactions => cases hstrikes
    | cleaned included =>
        exact ⟨front, included, rest, w, rfl, hw, hitem, hwaiting,
          List.contains_iff_mem.mp hstrikes⟩
  · rintro ⟨before, included, after, w, rfl, hw, hitem, hwaiting, hlisted⟩
    exact ⟨_, _, _, w, List.map_append, hw, hitem, hwaiting,
      List.contains_iff_mem.mpr hlisted⟩

/-- Every accepted transaction has its entry. -/
theorem map_item_history (events : List PoolEvent) :
    (history events).map Entry.item = acceptedOf events :=
  (map_item_ledger _).trans (admittedBy_queueEvents events)

/-- The queue is what waits of them. -/
theorem items_waiting_history {calls : List PoolCall} {pool : MemPool}
    {events : List PoolEvent} (hrun : Run next new calls pool events) :
    items .waiting (history events) = pool.queue := by
  rw [(run_queue hrun).1, queueAfter_eq]
  rfl

/-- After every sequence of calls, what was popped and then the queue are the
accepted transactions in their order, except for those that a
`remove_included` found in the queue. -/
theorem run_conserved {calls : List PoolCall} {pool : MemPool}
    {events : List PoolEvent} (hrun : Run next new calls pool events) :
    Conserved pool events := by
  obtain ⟨hqueue, hpopped⟩ := run_queue hrun
  constructor
  · exact map_item_history events
  · rw [hpopped, servedBy_eq]
    rfl
  · exact items_waiting_history hrun
  · rw [hpopped, hqueue]
    exact servedBy_append_queueAfter _
  · intro i e h
    exact history_struck_iff h

/-! ## Equal entries -/

/-- The window of the pool is the most recent part of what was accepted, and a
transaction is accepted again only outside of it. -/
structure Windowed (pool : MemPool) (events : List PoolEvent) : Prop where
  inStep : InStep pool.seen pool.seenOrder
  seenOrder_eq : pool.seenOrder =
    recent MAX_SEEN ((acceptedOf events).map Transaction.hash)
  spaced : Spaced MAX_SEEN ((acceptedOf events).map Transaction.hash)

theorem new_windowed : Windowed new [] where
  inStep := InStep.empty
  seenOrder_eq := (recent_eq_self (Nat.zero_le _)).symm
  spaced := spaced_nil MAX_SEEN

/-- A call that accepts nothing leaves the window alone. -/
theorem Windowed.of_same {pool last : MemPool} {events out : List PoolEvent}
    (h : Windowed pool events) (hseen : last.seen = pool.seen)
    (horder : last.seenOrder = pool.seenOrder) (hnone : acceptedOf out = []) :
    Windowed last (events ++ out) := by
  constructor
  · rw [hseen, horder]
    exact h.inStep
  · rw [horder, acceptedOf_append, hnone, List.append_nil]
    exact h.seenOrder_eq
  · rw [acceptedOf_append, hnone, List.append_nil]
    exact h.spaced

/-- The pool after a push that is accepted. -/
def enqueue (pool : MemPool) (transaction : Transaction) : MemPool :=
  let window :=
    remember MAX_SEEN pool.seen pool.seenOrder transaction.hash
  { queue := pool.queue ++ [transaction]
    seen := window.1
    seenOrder := window.2 }

theorem push_of_room {pool : MemPool} {transaction : Transaction}
    (hroom : pool.queue.length < MAX_MEMPOOL)
    (hnew : transaction.hash ∉ pool.seen) :
    pool.push transaction = (true, pool.enqueue transaction) := by
  unfold push
  rw [if_neg (by omega), if_neg hnew]
  rfl

theorem next_push_of_room {pool : MemPool} {transaction : Transaction}
    (hroom : pool.queue.length < MAX_MEMPOOL)
    (hnew : transaction.hash ∉ pool.seen) :
    next pool (.push transaction) =
      some (pool.enqueue transaction, [.accepted transaction]) := by
  simp [next, push_of_room hroom hnew]

theorem Windowed.enqueue {pool : MemPool} {events : List PoolEvent}
    (h : Windowed pool events) {transaction : Transaction}
    (hnew : transaction.hash ∉ pool.seen) :
    Windowed (pool.enqueue transaction) (events ++ [.accepted transaction]) := by
  have haccepted : (acceptedOf (events ++ [.accepted transaction])).map
      Transaction.hash =
        (acceptedOf events).map Transaction.hash ++ [transaction.hash] := by
    rw [acceptedOf_append, List.map_append]
    rfl
  constructor
  · exact remember_inStep MAX_SEEN h.inStep hnew
  · rw [haccepted]
    show (remember MAX_SEEN _ _ _).2 = _
    rw [remember_order MAX_SEEN h.inStep hnew, h.seenOrder_eq,
      recent_recent_snoc]
  · rw [haccepted]
    apply h.spaced.snoc
    rwa [← h.seenOrder_eq, ← h.inStep.mem_iff]

theorem next_windowed {pool last : MemPool} {events out : List PoolEvent}
    {call : PoolCall} (h : Windowed pool events)
    (hnext : next pool call = some (last, out)) :
    Windowed last (events ++ out) := by
  cases call with
  | push transaction =>
      simp only [next, Option.some.injEq, Prod.mk.injEq] at hnext
      obtain ⟨rfl, rfl⟩ := hnext
      by_cases hfull : MAX_MEMPOOL ≤ pool.queue.length
      · rw [push, if_pos hfull]
        exact h.of_same rfl rfl rfl
      by_cases hseen : transaction.hash ∈ pool.seen
      · rw [push, if_neg hfull, if_pos hseen]
        exact h.of_same rfl rfl rfl
      · rw [push_of_room (by omega) hseen]
        exact h.enqueue hseen
  | popMany count =>
      cases hnext
      exact h.of_same rfl rfl rfl
  | removeIncluded included =>
      cases hnext
      unfold removeIncluded
      split <;> exact h.of_same rfl rfl rfl

theorem run_windowed {calls : List PoolCall} {pool : MemPool}
    {events : List PoolEvent} (hrun : Run next new calls pool events) :
    Windowed pool events :=
  hrun.invariant_outputs new_windowed fun _ _ _ _ _ => next_windowed

/-- In every state of the pool, the queue is what waits of the accepted
transactions, and of two equal entries the second was accepted only after
`MAX_SEEN` others. -/
theorem run_repeats_apart {calls : List PoolCall} {pool : MemPool}
    {events : List PoolEvent} (hrun : Run next new calls pool events) :
    pool.queue = items .waiting (history events) ∧
    ∀ (i j : Nat) (a b : Entry Transaction), i < j →
      (history events)[i]? = some a → (history events)[j]? = some b →
      a.fate = .waiting → b.fate = .waiting → a.item.hash = b.item.hash →
        MAX_SEEN < j - i := by
  refine ⟨(items_waiting_history hrun).symm, ?_⟩
  intro i j a b hij ha hb _ _ hhash
  have hplace : ∀ {k : Nat} {e : Entry Transaction},
      (history events)[k]? = some e →
        ((acceptedOf events).map Transaction.hash)[k]? = some e.item.hash := by
    intro k e he
    rw [← map_item_history]
    simp [he]
  exact (run_windowed hrun).spaced i j _ hij (hplace ha)
    (hhash ▸ hplace hb)

end MemPool

end B4n.Blockchain

namespace B4n.Blockchain.Sample

open B4n.Lib MemPool

/-- Three pushes, a clean-up that finds the second and a pop. -/
private def smallCalls : List PoolCall :=
  [.push (trx 1 "tea"), .push (trx 2 "tea"), .push (trx 3 "tea"),
    .removeIncluded [trx 2 "tea"], .popMany 1]

private theorem smallCalls_run : ∃ pool events, Run next new smallCalls pool
    events ∧ (pool.queue = [trx 3 "tea"] ∧ poppedOf events = [trx 1 "tea"]) :=
  exists_run (by decide +kernel)

theorem run_conserved_small : ∃ pool events,
    Run next new smallCalls pool events ∧ pool.queue = [trx 3 "tea"] ∧
      poppedOf events = [trx 1 "tea"] ∧ Conserved pool events := by
  obtain ⟨pool, events, hrun, hqueue, hpopped⟩ := smallCalls_run
  exact ⟨pool, events, hrun, hqueue, hpopped, run_conserved hrun⟩

/-! ## A transaction that waits longer than the window remembers -/

/-- Each of these is pushed and then included in a block. -/
private def passing (others : List Transaction) : List PoolCall :=
  others.flatMap fun trx => [.push trx, .removeIncluded [trx]]

/-- While other transactions come and go, the first one stays queued. -/
private theorem run_passing {first : Transaction} {calls : List PoolCall}
    {pool : MemPool} {events : List PoolEvent}
    (hrun : Run next new calls pool events) (hqueue : pool.queue = [first])
    (hfirst : first ∈ acceptedOf events) (others : List Transaction)
    (hnodup : ((acceptedOf events ++ others).map Transaction.hash).Nodup) :
    ∃ last more, Run next new (calls ++ passing others) last more ∧
      last.queue = [first] ∧ acceptedOf more = acceptedOf events ++ others := by
  induction others generalizing calls pool events with
  | nil =>
      rw [passing, List.flatMap_nil, List.append_nil, List.append_nil]
      exact ⟨pool, events, hrun, hqueue, rfl⟩
  | cons trx others ih =>
      have hfresh : trx.hash ∉ (acceptedOf events).map Transaction.hash := by
        intro hmem
        rw [List.map_append, List.nodup_append] at hnodup
        exact hnodup.2.2 _ hmem _ (by simp) rfl
      have hwindow := run_windowed hrun
      have hnew : trx.hash ∉ pool.seen := by
        rw [hwindow.inStep.mem_iff, hwindow.seenOrder_eq]
        exact fun hmem => hfresh (List.mem_of_mem_drop hmem)
      have hpush : next pool (.push trx) =
          some (pool.enqueue trx, [.accepted trx]) :=
        next_push_of_room (by simp [hqueue, MAX_MEMPOOL]) hnew
      have hne : first.hash ≠ trx.hash := by
        intro heq
        exact hfresh (heq ▸ List.mem_map_of_mem hfirst)
      have hclean : next (pool.enqueue trx) (.removeIncluded [trx]) =
          some ((pool.enqueue trx).removeIncluded [trx], [.cleaned [trx]]) := rfl
      have hleft : ((pool.enqueue trx).removeIncluded [trx]).queue = [first] := by
        simp [removeIncluded, enqueue, hqueue, hne]
      have haccepted : acceptedOf
          (events ++ [.accepted trx] ++ [.cleaned [trx]]) =
            acceptedOf events ++ [trx] := by
        simp [acceptedOf]
      obtain ⟨last, more, hmore, hlast, hall⟩ :=
        ih ((hrun.step hpush).step hclean) hleft
          (by rw [haccepted]; exact List.mem_append_left _ hfirst)
          (by rw [haccepted, List.append_assoc]; exact hnodup)
      rw [haccepted, List.append_assoc] at hall
      refine ⟨last, more, ?_, hlast, hall⟩
      rw [List.append_assoc, List.append_assoc] at hmore
      exact hmore

/-- The transaction with a given number. -/
private def numberedTrx (i : Nat) : Transaction := trx (UInt64.ofNat i) ""

private theorem numberedTrx_hash_inj {i j : Nat} (hi : i < 2 ^ 64)
    (hj : j < 2 ^ 64) (h : (numberedTrx i).hash = (numberedTrx j).hash) : i = j := by
  have hshort : ∀ k : Nat, (toStdvec (numberedTrx k)).length ≤ 31 := by
    intro k
    have hvarint := length_varint_le 10 (numberedTrx k).id.toNat
    have hrest : (varint 10 1 ++ (varint 10 2 ++ (varint 10 0 ++ []))).length =
        3 := by decide
    show (varint 10 (numberedTrx k).id.toNat ++ (varint 10 1 ++ (varint 10 2 ++
      (varint 10 0 ++ [])))).length ≤ 31
    rw [List.length_append, hrest]
    omega
  have hbytes := sha256_inj_of_length_le (hshort i) (hshort j) h
  have hid := congrArg Transaction.id (toStdvec_injective hbytes)
  have hnat := congrArg UInt64.toNat hid
  change (UInt64.ofNat i).toNat = (UInt64.ofNat j).toNat at hnat
  rwa [UInt64.toNat_ofNat_of_lt' hi, UInt64.toNat_ofNat_of_lt' hj] at hnat

/-- As many transactions as the window remembers. -/
private def passersBy : List Transaction :=
  (List.range' 1 MAX_SEEN).map numberedTrx

private theorem passersBy_nodup :
    ((numberedTrx 0 :: passersBy).map Transaction.hash).Nodup := by
  have hall : numberedTrx 0 :: passersBy =
      (List.range' 0 (MAX_SEEN + 1)).map numberedTrx := by
    rw [List.range'_succ]
    rfl
  rw [hall, List.map_map]
  apply List.Nodup.map_on _ List.nodup_range'
  intro i hi j hj heq
  rw [List.mem_range'_1] at hi hj
  unfold MAX_SEEN at hi hj
  exact numberedTrx_hash_inj (by omega) (by omega) heq

/-- Transaction 0 waits while the others pass, and is pushed again. -/
def refill : List PoolCall :=
  [.push (numberedTrx 0)] ++ passing passersBy ++ [.push (numberedTrx 0)]

theorem refill_repeats : ∃ pool events, Run next new refill pool events ∧
    pool.queue = [numberedTrx 0, numberedTrx 0] := by
  have hempty : next new (.push (numberedTrx 0)) =
      some (new.enqueue (numberedTrx 0), [.accepted (numberedTrx 0)]) :=
    next_push_of_room (by decide : new.queue.length < MAX_MEMPOOL)
      (Finset.notMem_empty _)
  have hfirst : Run next new ([] ++ [.push (numberedTrx 0)])
      (new.enqueue (numberedTrx 0)) ([] ++ [.accepted (numberedTrx 0)]) :=
    Run.start.step hempty
  obtain ⟨pool, events, hrun, hqueue, haccepted⟩ :=
    run_passing hfirst rfl (List.mem_singleton_self _) passersBy passersBy_nodup
  -- the window holds the hashes of the others and no other
  have hwindow := run_windowed hrun
  have hlength : (passersBy.map Transaction.hash).length = MAX_SEEN := by
    simp [passersBy]
  have hseen : pool.seenOrder = passersBy.map Transaction.hash := by
    rw [hwindow.seenOrder_eq, haccepted]
    exact recent_cons_of_length_eq _ hlength
  have hnew : (numberedTrx 0).hash ∉ pool.seen := by
    rw [hwindow.inStep.mem_iff, hseen]
    exact (List.nodup_cons.mp passersBy_nodup).1
  have hpush : next pool (.push (numberedTrx 0)) =
      some (pool.enqueue (numberedTrx 0), [.accepted (numberedTrx 0)]) :=
    next_push_of_room (by simp [hqueue, MAX_MEMPOOL]) hnew
  exact ⟨_, _, hrun.step hpush, by simp [enqueue, hqueue]⟩

/-- Its two entries are far apart in the ledger. -/
theorem run_repeats_apart_refill : ∃ pool events i j,
    Run next new refill pool events ∧
    (history events)[i]?.map Entry.item = some (numberedTrx 0) ∧
    (history events)[j]?.map Entry.item = some (numberedTrx 0) ∧
    i < j ∧ MAX_SEEN < j - i := by
  obtain ⟨pool, events, hrun, hqueue⟩ := refill_repeats
  obtain ⟨hwaiting, hapart⟩ := run_repeats_apart hrun
  rw [hqueue, items] at hwaiting
  obtain ⟨a, rest, hfilter, ha, hrest⟩ := List.map_eq_cons_iff.mp hwaiting.symm
  obtain ⟨b, last, rfl, hb, hlast⟩ := List.map_eq_cons_iff.mp hrest
  rw [List.map_eq_nil_iff] at hlast
  subst hlast
  -- the two waiting entries have their places in the ledger, in this order
  obtain ⟨f, hf⟩ := List.sublist_iff_exists_orderEmbedding_getElem?_eq.mp
    (hfilter ▸ List.filter_sublist : [a, b].Sublist (history events))
  have hfate : ∀ e ∈ [a, b], e.fate = .waiting := by
    intro e he
    rw [← hfilter, List.mem_filter] at he
    exact of_decide_eq_true he.2
  have hi : (history events)[f 0]? = some a := (hf 0).symm
  have hj : (history events)[f 1]? = some b := (hf 1).symm
  have hij : f 0 < f 1 := f.lt_iff_lt.mpr Nat.zero_lt_one
  refine ⟨pool, events, f 0, f 1, hrun, by rw [hi, Option.map_some, ha],
    by rw [hj, Option.map_some, hb], hij, ?_⟩
  exact hapart (f 0) (f 1) a b hij hi hj (hfate a (by simp))
    (hfate b (by simp)) (by rw [ha, hb])

end B4n.Blockchain.Sample
