import B4n.Lib.Runs
import Mathlib.Data.Finset.Card
import Mathlib.Data.List.Nodup

/-!
# Bounded first-in-first-out windows

A deduplication cache keeps a set of recent keys together with a queue that
remembers their order of arrival.  Admitting a key inserts it into both and
then evicts from the front of the queue until the set is within its capacity.

The two containers are updated separately, so the point of this module is that
they stay *in step*: the set is the set of queue entries, the queue has no
repetition, and the queue is the most recent part of everything admitted.
-/

namespace B4n.Lib

variable {α : Type}

/-! ## The most recent part of a queue -/

/-- The most recent `cap` entries of a queue. -/
def recent (cap : Nat) (order : List α) : List α :=
  order.drop (order.length - cap)

theorem length_recent (cap : Nat) (order : List α) :
    (recent cap order).length = min cap order.length := by
  unfold recent
  rw [List.length_drop]
  omega

/-- A queue no longer than the capacity is recent as a whole. -/
theorem recent_eq_self {cap : Nat} {order : List α}
    (h : order.length ≤ cap) : recent cap order = order := by
  unfold recent
  rw [Nat.sub_eq_zero_of_le h, List.drop_zero]

/-- A full window no longer holds what was admitted before it. -/
theorem recent_cons_of_length_eq {cap : Nat} (key : α) {keys : List α}
    (h : keys.length = cap) : recent cap (key :: keys) = keys := by
  unfold recent
  rw [List.length_cons, h, Nat.add_sub_cancel_left, List.drop_one, List.tail_cons]

/-- The window after an admission depends on the window before it only. -/
theorem recent_recent_snoc (cap : Nat) (order : List α) (key : α) :
    recent cap (recent cap order ++ [key]) = recent cap (order ++ [key]) := by
  unfold recent
  by_cases hle : order.length ≤ cap
  · rw [Nat.sub_eq_zero_of_le hle, List.drop_zero]
  · rw [← List.drop_append_of_le_length (by omega), List.drop_drop]
    congr 1
    simp only [List.length_drop, List.length_append, List.length_singleton]
    omega

/-- If the newer part fits, only older entries fall out. -/
theorem recent_append_of_length_le {cap : Nat} (older : List α)
    {newer : List α} (h : newer.length ≤ cap) :
    ∃ dropped, recent cap (older ++ newer) = older.drop dropped ++ newer := by
  refine ⟨(older ++ newer).length - cap, ?_⟩
  unfold recent
  rw [List.drop_append_of_le_length]
  rw [List.length_append]
  omega

/-! ## Keys that come back -/

/-- Between two admissions of one key there are at least `cap` others. -/
def Spaced (cap : Nat) (keys : List α) : Prop :=
  ∀ i j key, i < j → keys[i]? = some key → keys[j]? = some key → cap < j - i

theorem spaced_nil (cap : Nat) : Spaced cap ([] : List α) := by
  intro i j key _ hi
  simp at hi

/-- A key that is not among the most recent ones keeps its distance. -/
theorem Spaced.snoc {cap : Nat} {keys : List α} (h : Spaced cap keys) {key : α}
    (hnew : key ∉ recent cap keys) : Spaced cap (keys ++ [key]) := by
  intro i j other hij hi hj
  have hjle : j < (keys ++ [key]).length := (List.getElem?_eq_some_iff.mp hj).1
  rw [List.length_append, List.length_singleton] at hjle
  rw [List.getElem?_append_left (by omega)] at hi
  by_cases hlast : j < keys.length
  · rw [List.getElem?_append_left hlast] at hj
    exact h i j other hij hi hj
  have hjeq : j = keys.length := by omega
  subst hjeq
  rw [List.getElem?_concat_length, Option.some.injEq] at hj
  subst hj
  by_contra hclose
  apply hnew
  -- the earlier admission is among the last `cap` of them
  rw [recent, List.mem_iff_getElem?]
  refine ⟨i - (keys.length - cap), ?_⟩
  rw [List.getElem?_drop,
    show keys.length - cap + (i - (keys.length - cap)) = i by omega]
  exact hi

/-! ## A set and a queue in step -/

/-- The set holds exactly the queue entries, each queued once. -/
structure InStep (seen : Finset α) (order : List α) : Prop where
  nodup : order.Nodup
  mem_iff : ∀ key, key ∈ seen ↔ key ∈ order

theorem InStep.empty : InStep (∅ : Finset α) [] :=
  ⟨List.nodup_nil, by simp⟩

variable [DecidableEq α]

theorem InStep.eq_toFinset {seen : Finset α} {order : List α}
    (h : InStep seen order) : seen = order.toFinset := by
  ext key
  rw [h.mem_iff, List.mem_toFinset]

theorem InStep.card_eq {seen : Finset α} {order : List α}
    (h : InStep seen order) : seen.card = order.length := by
  rw [h.eq_toFinset, List.toFinset_card_of_nodup h.nodup]

/-- A new key goes to the back of the queue. -/
theorem InStep.push {seen : Finset α} {order : List α}
    (h : InStep seen order) {key : α} (hnew : key ∉ seen) :
    InStep (insert key seen) (order ++ [key]) := by
  refine ⟨?_, fun other => ?_⟩
  · rw [List.nodup_append]
    refine ⟨h.nodup, List.nodup_singleton key, ?_⟩
    rintro a ha b hb rfl
    rw [List.mem_singleton] at hb
    exact hnew ((h.mem_iff key).mpr (hb ▸ ha))
  · rw [Finset.mem_insert, h.mem_iff, List.mem_append, List.mem_singleton]
    exact or_comm

/-! ## Eviction -/

/-- The eviction loop: while the set is over capacity, pop the oldest queue
entry and remove it from the set. -/
def evictOldest (cap : Nat) : Finset α → List α → Finset α × List α
  | seen, [] => (seen, [])
  | seen, old :: order =>
      if cap < seen.card then evictOldest cap (seen.erase old) order
      else (seen, old :: order)

/-- Admit a key that is not in the window. -/
def remember (cap : Nat) (seen : Finset α) (order : List α) (key : α) :
    Finset α × List α :=
  evictOldest cap (insert key seen) (order ++ [key])

/-- Eviction only removes keys, whatever the state of the window. -/
theorem evictOldest_subset (cap : Nat) (seen : Finset α) (order : List α) :
    (evictOldest cap seen order).1 ⊆ seen := by
  induction order generalizing seen with
  | nil => exact Finset.Subset.refl _
  | cons old order ih =>
      unfold evictOldest
      split
      · exact (ih _).trans (Finset.erase_subset _ _)
      · exact Finset.Subset.refl _

/-- Dropping the oldest entry from both containers keeps them in step. -/
theorem InStep.erase_front {seen : Finset α} {old : α} {order : List α}
    (h : InStep seen (old :: order)) : InStep (seen.erase old) order := by
  have hnd := List.nodup_cons.mp h.nodup
  refine ⟨hnd.2, fun key => ?_⟩
  rw [Finset.mem_erase, h.mem_iff, List.mem_cons]
  constructor
  · rintro ⟨hne, hold | hmem⟩
    · exact absurd hold hne
    · exact hmem
  · intro hmem
    exact ⟨fun heq => hnd.1 (heq ▸ hmem), Or.inr hmem⟩

theorem evictOldest_inStep (cap : Nat) {seen : Finset α} {order : List α}
    (h : InStep seen order) :
    InStep (evictOldest cap seen order).1 (evictOldest cap seen order).2 := by
  induction order generalizing seen with
  | nil => exact h
  | cons old order ih =>
      unfold evictOldest
      split
      · exact ih h.erase_front
      · exact h

/-- On a window in step, eviction keeps exactly the most recent entries. -/
theorem evictOldest_order (cap : Nat) {seen : Finset α} {order : List α}
    (h : InStep seen order) :
    (evictOldest cap seen order).2 = recent cap order := by
  induction order generalizing seen with
  | nil => simp [evictOldest, recent]
  | cons old order ih =>
      have hcard := h.card_eq
      rw [List.length_cons] at hcard
      unfold evictOldest
      by_cases hOver : cap < seen.card
      · rw [if_pos hOver, ih h.erase_front]
        unfold recent
        rw [List.length_cons,
          show order.length + 1 - cap = (order.length - cap) + 1 by omega,
          List.drop_succ_cons]
      · rw [if_neg hOver]
        exact (recent_eq_self (by rw [List.length_cons]; omega)).symm

/-! ## Admission -/

/-- Admitting a new key keeps the containers in step. -/
theorem remember_inStep (cap : Nat) {seen : Finset α} {order : List α}
    (h : InStep seen order) {key : α} (hnew : key ∉ seen) :
    InStep (remember cap seen order key).1 (remember cap seen order key).2 :=
  evictOldest_inStep cap (h.push hnew)

/-- Admitting a new key appends it to the queue and keeps the recent part. -/
theorem remember_order (cap : Nat) {seen : Finset α} {order : List α}
    (h : InStep seen order) {key : α} (hnew : key ∉ seen) :
    (remember cap seen order key).2 = recent cap (order ++ [key]) :=
  evictOldest_order cap (h.push hnew)

/-- An admission leaves the queue within the capacity. -/
theorem length_remember_le (cap : Nat) {seen : Finset α} {order : List α}
    (h : InStep seen order) {key : α} (hnew : key ∉ seen) :
    (remember cap seen order key).2.length ≤ cap := by
  rw [remember_order cap h hnew, length_recent]
  exact Nat.min_le_left _ _

/-- A key that was neither admitted nor held before is not held after. -/
theorem not_mem_remember (cap : Nat) {seen : Finset α} (order : List α)
    {key other : α} (hne : other ≠ key) (hother : other ∉ seen) :
    other ∉ (remember cap seen order key).1 := by
  intro hmem
  have hins := evictOldest_subset cap _ _ hmem
  rw [Finset.mem_insert] at hins
  exact hins.elim hne hother

/-! ## Runs of a window -/

/-- The window of what was admitted: the set and the queue hold the same keys,
each once, and these are the most recent ones in order. -/
structure ExactWindow (cap : Nat) (seen : Finset α) (order admitted : List α) : Prop where
  seen_eq : seen = order.toFinset
  nodup : order.Nodup
  order_eq : order = recent cap admitted

theorem exactWindow_iff {cap : Nat} {seen : Finset α} {order admitted : List α} :
    ExactWindow cap seen order admitted ↔
      InStep seen order ∧ order = recent cap admitted := by
  constructor
  · intro h
    refine ⟨⟨h.nodup, fun key => ?_⟩, h.order_eq⟩
    rw [h.seen_eq, List.mem_toFinset]
  · rintro ⟨hstep, horder⟩
    exact ⟨hstep.eq_toFinset, hstep.nodup, horder⟩

theorem ExactWindow.empty (cap : Nat) : ExactWindow cap (∅ : Finset α) [] [] :=
  exactWindow_iff.mpr ⟨InStep.empty, (recent_eq_self (Nat.zero_le cap)).symm⟩

theorem ExactWindow.mem_iff {cap : Nat} {seen : Finset α} {order admitted : List α}
    (h : ExactWindow cap seen order admitted) (key : α) :
    key ∈ seen ↔ key ∈ recent cap admitted := by
  rw [h.seen_eq, List.mem_toFinset, h.order_eq]

/-- A new key enters the window. -/
theorem ExactWindow.remember {cap : Nat} {seen : Finset α} {order admitted : List α}
    (h : ExactWindow cap seen order admitted) {key : α} (hnew : key ∉ seen) :
    ExactWindow cap (remember cap seen order key).1 (remember cap seen order key).2
      (admitted ++ [key]) := by
  obtain ⟨hstep, horder⟩ := exactWindow_iff.mp h
  apply exactWindow_iff.mpr
  refine ⟨remember_inStep cap hstep hnew, ?_⟩
  rw [remember_order cap hstep hnew, horder, recent_recent_snoc]

/-- A window as a machine: a key that it does not hold is admitted and put
out. -/
def enter (cap : Nat) : Machine (Finset α × List α) α α := fun window key =>
  if key ∈ window.1 then some (window, [])
  else some (remember cap window.1 window.2 key, [key])

/-- However many keys come, the window is that of all keys admitted so far. -/
theorem ExactWindow.run {cap : Nat} {window last : Finset α × List α}
    {keys admitted more : List α} (h : ExactWindow cap window.1 window.2 admitted)
    (hrun : Run (enter cap) window keys last more) :
    ExactWindow cap last.1 last.2 (admitted ++ more) := by
  induction hrun with
  | start => rwa [List.append_nil]
  | step _ hnext ih =>
      rename_i s outputs key t out _
      unfold enter at hnext
      by_cases hmem : key ∈ s.1
      · rw [if_pos hmem, Option.some.injEq, Prod.mk.injEq] at hnext
        obtain ⟨rfl, rfl⟩ := hnext
        rwa [List.append_nil]
      · rw [if_neg hmem, Option.some.injEq, Prod.mk.injEq] at hnext
        obtain ⟨rfl, rfl⟩ := hnext
        rw [← List.append_assoc]
        exact ih.remember hmem

end B4n.Lib
