import Mathlib.Data.List.Induction

/-!
# A queue and its ledger

A queue takes items in at the back, serves items from the front, and may be told
to strike every waiting item that satisfies a predicate.  Equal items may wait
at the same time, so what became of an item is a question about one occurrence
of it.  The *ledger* of a queue lists every occurrence that was taken in, in
this order, together with its fate so far.

## Main results

* `queueAfter_eq`, `servedBy_eq` — the queue and what was served, read off the
  ledger.
* `servedBy_append_queueAfter` — what was served, followed by the queue, is the
  ledger without the struck entries.
* `struck_iff` — the struck entries are those that waited when a strike named
  them.
-/

namespace B4n.Lib

variable {α : Type}

/-- What happens to a queue. -/
inductive QueueEvent (α : Type) where
  | admitted (item : α)
  | served (count : Nat)
  | struck (p : α → Bool)

/-- The queue after an event. -/
def QueueEvent.apply (queue : List α) : QueueEvent α → List α
  | .admitted item => queue ++ [item]
  | .served count => queue.drop count
  | .struck p => queue.filter fun item => !p item

/-- What an event takes from the front of the queue. -/
def QueueEvent.taken (queue : List α) : QueueEvent α → List α
  | .served count => queue.take count
  | _ => []

/-- What an event takes in. -/
def QueueEvent.taking : QueueEvent α → List α
  | .admitted item => [item]
  | _ => []

/-- Everything taken in, in order. -/
def admittedBy (events : List (QueueEvent α)) : List α :=
  events.flatMap QueueEvent.taking

theorem admittedBy_append (events more : List (QueueEvent α)) :
    admittedBy (events ++ more) = admittedBy events ++ admittedBy more := by
  simp [admittedBy]

/-- The queue after a history of events. -/
def queueAfter (events : List (QueueEvent α)) : List α :=
  events.foldl QueueEvent.apply []

/-- Everything served in a history that starts with a given queue. -/
def servedFrom (queue : List α) : List (QueueEvent α) → List α
  | [] => []
  | e :: events => e.taken queue ++ servedFrom (e.apply queue) events

/-- Everything served in a history. -/
def servedBy (events : List (QueueEvent α)) : List α := servedFrom [] events

theorem servedFrom_append (queue : List α) (events more : List (QueueEvent α)) :
    servedFrom queue (events ++ more) =
      servedFrom queue events ++
        servedFrom (events.foldl QueueEvent.apply queue) more := by
  induction events generalizing queue with
  | nil => rfl
  | cons e events ih =>
      show e.taken queue ++ servedFrom (e.apply queue) (events ++ more) = _
      rw [ih, ← List.append_assoc]
      rfl

/-! ## The ledger -/

/-- What became of an item of a queue. -/
inductive Fate where
  | waiting
  | served
  | struck
deriving DecidableEq

/-- An occurrence of an item and its fate. -/
structure Entry (α : Type) where
  item : α
  fate : Fate

/-- Serve the first waiting entries. -/
def serve : Nat → List (Entry α) → List (Entry α)
  | _, [] => []
  | 0, entries => entries
  | count + 1, e :: entries =>
      if e.fate = .waiting then ⟨e.item, .served⟩ :: serve count entries
      else e :: serve (count + 1) entries

/-- Strike an entry that waits and satisfies the predicate. -/
def Entry.strike (p : α → Bool) (e : Entry α) : Entry α :=
  if e.fate = .waiting ∧ p e.item then ⟨e.item, .struck⟩ else e

/-- The ledger after an event. -/
def record (entries : List (Entry α)) : QueueEvent α → List (Entry α)
  | .admitted item => entries ++ [⟨item, .waiting⟩]
  | .served count => serve count entries
  | .struck p => entries.map (Entry.strike p)

/-- The ledger of a history. -/
def ledger (events : List (QueueEvent α)) : List (Entry α) :=
  events.foldl record []

/-- The items of a given fate. -/
def items (fate : Fate) (entries : List (Entry α)) : List α :=
  (entries.filter fun e => e.fate = fate).map Entry.item

/-- The items that were not struck. -/
def kept (entries : List (Entry α)) : List α :=
  (entries.filter fun e => e.fate ≠ .struck).map Entry.item

@[simp] theorem items_nil (fate : Fate) :
    items fate ([] : List (Entry α)) = [] := rfl

theorem items_append (fate : Fate) (entries more : List (Entry α)) :
    items fate (entries ++ more) = items fate entries ++ items fate more := by
  simp [items]

theorem items_cons (fate : Fate) (e : Entry α) (entries : List (Entry α)) :
    items fate (e :: entries) =
      if e.fate = fate then e.item :: items fate entries
      else items fate entries := by
  by_cases h : e.fate = fate
  · simp [items, h]
  · simp [items, h]

theorem ledger_snoc (events : List (QueueEvent α)) (e : QueueEvent α) :
    ledger (events ++ [e]) = record (ledger events) e := by
  simp [ledger]

theorem queueAfter_snoc (events : List (QueueEvent α)) (e : QueueEvent α) :
    queueAfter (events ++ [e]) = e.apply (queueAfter events) := by
  simp [queueAfter]

theorem servedBy_snoc (events : List (QueueEvent α)) (e : QueueEvent α) :
    servedBy (events ++ [e]) =
      servedBy events ++ e.taken (queueAfter events) := by
  simp [servedBy, servedFrom_append, servedFrom, queueAfter]

/-! ## Every occurrence has its place -/

theorem map_item_serve (count : Nat) (entries : List (Entry α)) :
    (serve count entries).map Entry.item = entries.map Entry.item := by
  fun_induction serve count entries with
  | case1 => rfl
  | case2 => rfl
  | case3 count e entries hwaiting ih => simp [ih]
  | case4 count e entries hnot ih => simp [ih]

theorem item_strike (p : α → Bool) (e : Entry α) :
    (e.strike p).item = e.item := by
  unfold Entry.strike
  split <;> rfl

theorem map_item_record (entries : List (Entry α)) (e : QueueEvent α) :
    (record entries e).map Entry.item = entries.map Entry.item ++ e.taking := by
  cases e with
  | admitted item => simp [record, QueueEvent.taking]
  | served count => simp [record, QueueEvent.taking, map_item_serve]
  | struck p => simp [record, QueueEvent.taking, item_strike]

/-- The ledger lists everything that was taken in. -/
theorem map_item_ledger (events : List (QueueEvent α)) :
    (ledger events).map Entry.item = admittedBy events := by
  induction events using List.reverseRecOn with
  | nil => rfl
  | append_singleton events e ih =>
      rw [ledger_snoc, map_item_record, ih, admittedBy_append]
      simp [admittedBy]

/-- What was taken in keeps its place in the ledger. -/
theorem getElem?_ledger_append {events : List (QueueEvent α)} {i : Nat}
    {a : Entry α} (h : (ledger events)[i]? = some a)
    (more : List (QueueEvent α)) :
    ∃ b, (ledger (events ++ more))[i]? = some b ∧ b.item = a.item := by
  have hitem : (admittedBy events)[i]? = some a.item := by
    rw [← map_item_ledger, List.getElem?_map, h, Option.map_some]
  have hmore : ((ledger (events ++ more)).map Entry.item)[i]? =
      some a.item := by
    rw [map_item_ledger, admittedBy_append,
      List.getElem?_append_left (List.getElem?_eq_some_iff.mp hitem).1]
    exact hitem
  rw [List.getElem?_map, Option.map_eq_some_iff] at hmore
  exact hmore

/-! ## Waiting entries -/

theorem waiting_serve (count : Nat) (entries : List (Entry α)) :
    items .waiting (serve count entries) =
      (items .waiting entries).drop count := by
  fun_induction serve count entries with
  | case1 => simp
  | case2 => simp
  | case3 count e entries hwaiting ih => simp [items_cons, hwaiting, ih]
  | case4 count e entries hnot ih => simp [items_cons, hnot, ih]

theorem waiting_strike (p : α → Bool) (entries : List (Entry α)) :
    items .waiting (entries.map (Entry.strike p)) =
      (items .waiting entries).filter fun item => !p item := by
  induction entries with
  | nil => rfl
  | cons e entries ih =>
      rw [List.map_cons, items_cons, items_cons, ih]
      unfold Entry.strike
      by_cases hwaiting : e.fate = .waiting
      · by_cases hp : p e.item = true
        · simp [hwaiting, hp]
        · simp [hwaiting, hp]
      · simp [hwaiting]

theorem waiting_record (entries : List (Entry α)) (e : QueueEvent α) :
    items .waiting (record entries e) = e.apply (items .waiting entries) := by
  cases e with
  | admitted item => simp [record, items_append, items_cons, QueueEvent.apply]
  | served count => exact waiting_serve count entries
  | struck p => exact waiting_strike p entries

/-- The queue is what waits. -/
theorem queueAfter_eq (events : List (QueueEvent α)) :
    queueAfter events = items .waiting (ledger events) := by
  induction events using List.reverseRecOn with
  | nil => rfl
  | append_singleton events e ih =>
      rw [queueAfter_snoc, ledger_snoc, waiting_record, ih]

/-! ## Served entries -/

/-- Whatever was served came before everything that waits. -/
def InOrder (entries : List (Entry α)) : Prop :=
  entries.Pairwise fun a b => a.fate = .waiting → b.fate ≠ .served

theorem served_eq_nil_of_inOrder {e : Entry α} {entries : List (Entry α)}
    (h : InOrder (e :: entries)) (hwaiting : e.fate = .waiting) :
    items .served entries = [] := by
  have hnone := (List.pairwise_cons.mp h).1
  simp only [items, List.map_eq_nil_iff, List.filter_eq_nil_iff,
    decide_eq_true_eq]
  intro b hb
  exact hnone b hb hwaiting

/-- Serving entries in order hands out the first that wait. -/
theorem served_serve (count : Nat) {entries : List (Entry α)}
    (h : InOrder entries) :
    items .served (serve count entries) =
      items .served entries ++ (items .waiting entries).take count := by
  fun_induction serve count entries with
  | case1 => simp
  | case2 => simp
  | case3 count e entries hwaiting ih =>
      have hnone := served_eq_nil_of_inOrder h hwaiting
      rw [items_cons, if_pos rfl, ih (List.pairwise_cons.mp h).2, hnone]
      simp [items_cons, hwaiting, hnone]
  | case4 count e entries hnot ih =>
      rw [items_cons, ih (List.pairwise_cons.mp h).2]
      by_cases hserved : e.fate = .served
      · simp [items_cons, hserved]
      · simp [items_cons, hserved, hnot]

theorem inOrder_serve (count : Nat) {entries : List (Entry α)}
    (h : InOrder entries) : InOrder (serve count entries) := by
  fun_induction serve count entries with
  | case1 => exact h
  | case2 => exact h
  | case3 count e entries hwaiting ih =>
      refine List.pairwise_cons.mpr ⟨?_, ih (List.pairwise_cons.mp h).2⟩
      intro b _ hno
      simp at hno
  | case4 count e entries hnot ih =>
      refine List.pairwise_cons.mpr ⟨?_, ih (List.pairwise_cons.mp h).2⟩
      intro b _ hno
      exact absurd hno hnot

theorem inOrder_strike (p : α → Bool) {entries : List (Entry α)}
    (h : InOrder entries) : InOrder (entries.map (Entry.strike p)) := by
  apply List.Pairwise.map _ _ h
  intro a b hab
  unfold Entry.strike
  split <;> split <;> simp_all

theorem inOrder_record {entries : List (Entry α)} (h : InOrder entries)
    (e : QueueEvent α) : InOrder (record entries e) := by
  cases e with
  | admitted item =>
      refine List.pairwise_append.mpr ⟨h, List.pairwise_singleton _ _, ?_⟩
      simp
  | served count => exact inOrder_serve count h
  | struck p => exact inOrder_strike p h

theorem inOrder_ledger (events : List (QueueEvent α)) :
    InOrder (ledger events) := by
  induction events using List.reverseRecOn with
  | nil => exact List.Pairwise.nil
  | append_singleton events e ih =>
      rw [ledger_snoc]
      exact inOrder_record ih e

/-- A strike leaves alone what was served. -/
theorem served_strike (p : α → Bool) (entries : List (Entry α)) :
    items .served (entries.map (Entry.strike p)) = items .served entries := by
  induction entries with
  | nil => rfl
  | cons e entries ih =>
      rw [List.map_cons, items_cons, items_cons, ih]
      unfold Entry.strike
      split
      · rename_i hstruck
        simp [hstruck.1]
      · rfl

theorem served_record {entries : List (Entry α)} (h : InOrder entries)
    (e : QueueEvent α) :
    items .served (record entries e) =
      items .served entries ++ e.taken (items .waiting entries) := by
  cases e with
  | admitted item => simp [record, items_append, items_cons, QueueEvent.taken]
  | served count => exact served_serve count h
  | struck p =>
      show items .served (entries.map _) = _
      simp [served_strike, QueueEvent.taken]

/-- What was served is what the ledger calls served, in its order. -/
theorem servedBy_eq (events : List (QueueEvent α)) :
    servedBy events = items .served (ledger events) := by
  induction events using List.reverseRecOn with
  | nil => rfl
  | append_singleton events e ih =>
      rw [servedBy_snoc, ledger_snoc, served_record (inOrder_ledger events), ih,
        queueAfter_eq]

/-! ## Nothing is lost but what was struck -/

theorem kept_cons (e : Entry α) (entries : List (Entry α)) :
    kept (e :: entries) =
      if e.fate = .struck then kept entries else e.item :: kept entries := by
  by_cases h : e.fate = .struck
  · simp [kept, h]
  · simp [kept, h]

theorem served_append_waiting {entries : List (Entry α)} (h : InOrder entries) :
    items .served entries ++ items .waiting entries = kept entries := by
  induction entries with
  | nil => rfl
  | cons e entries ih =>
      have hrest := ih (List.pairwise_cons.mp h).2
      rw [kept_cons, items_cons, items_cons, ← hrest]
      cases hfate : e.fate with
      | waiting => simp [served_eq_nil_of_inOrder h hfate]
      | served => simp
      | struck => simp

/-- What was served, followed by what waits, is everything that was taken in
and not struck. -/
theorem servedBy_append_queueAfter (events : List (QueueEvent α)) :
    servedBy events ++ queueAfter events = kept (ledger events) := by
  rw [servedBy_eq, queueAfter_eq]
  exact served_append_waiting (inOrder_ledger events)

/-! ## Struck entries -/

/-- The items that an event strikes if they wait. -/
def QueueEvent.Strikes : QueueEvent α → α → Prop
  | .struck p, item => p item = true
  | _, _ => False

/-- Serving keeps every entry in its place and strikes none. -/
theorem getElem?_serve {count : Nat} {entries : List (Entry α)} {i : Nat}
    {b : Entry α} (h : (serve count entries)[i]? = some b) :
    ∃ a, entries[i]? = some a ∧ b.item = a.item ∧
      (b.fate = .struck ↔ a.fate = .struck) := by
  fun_induction serve count entries generalizing i with
  | case1 => exact ⟨b, h, rfl, Iff.rfl⟩
  | case2 => exact ⟨b, h, rfl, Iff.rfl⟩
  | case3 count e entries hwaiting ih =>
      cases i with
      | zero =>
          simp only [List.getElem?_cons_zero, Option.some.injEq] at h
          exact ⟨e, rfl, by simp [← h], by simp [← h, hwaiting]⟩
      | succ i => exact ih h
  | case4 count e entries hnot ih =>
      cases i with
      | zero => exact ⟨b, h, rfl, Iff.rfl⟩
      | succ i => exact ih h

/-- An entry is struck by an event that finds it waiting, and stays struck. -/
theorem struck_record {entries : List (Entry α)} {e : QueueEvent α} {i : Nat}
    {b : Entry α} (h : (record entries e)[i]? = some b) :
    b.fate = .struck ↔ ∃ a, entries[i]? = some a ∧ a.item = b.item ∧
      (a.fate = .struck ∨ (a.fate = .waiting ∧ e.Strikes b.item)) := by
  cases e with
  | admitted item =>
      simp only [record, List.getElem?_append, QueueEvent.Strikes, and_false,
        or_false] at h ⊢
      split at h
      · simp [h]
      · rename_i hout
        have hnone : entries[i]? = none := List.getElem?_eq_none (by omega)
        obtain ⟨-, rfl⟩ := List.getElem?_eq_some_iff.mp h
        simp [hnone]
  | served count =>
      obtain ⟨a, ha, hitem, hfate⟩ := getElem?_serve h
      simp [ha, hitem, hfate, QueueEvent.Strikes]
  | struck p =>
      simp only [record, List.getElem?_map, Option.map_eq_some_iff] at h
      obtain ⟨a, ha, rfl⟩ := h
      unfold Entry.strike
      split
      · rename_i hstruck
        simp [ha, hstruck, QueueEvent.Strikes]
      · rename_i hleft
        simp only [ha, Option.some.injEq, exists_eq_left', true_and,
          QueueEvent.Strikes]
        rw [or_iff_left hleft]

/-- An entry is struck if and only if it waited when a strike named its
item. -/
theorem struck_iff {events : List (QueueEvent α)} {i : Nat} {b : Entry α}
    (h : (ledger events)[i]? = some b) :
    b.fate = .struck ↔ ∃ before e after a, events = before ++ e :: after ∧
      (ledger before)[i]? = some a ∧ a.item = b.item ∧ a.fate = .waiting ∧
      e.Strikes b.item := by
  induction events using List.reverseRecOn generalizing b with
  | nil => simp [ledger] at h
  | append_singleton events e ih =>
      rw [ledger_snoc] at h
      rw [struck_record h]
      constructor
      · rintro ⟨a, ha, hitem, hstruck | ⟨hwaiting, hnames⟩⟩
        · obtain ⟨before, f, after, w, rfl, hw, hwitem, hrest⟩ :=
            (ih ha).mp hstruck
          exact ⟨before, f, after ++ [e], w, by simp, hw, hwitem.trans hitem,
            hitem ▸ hrest⟩
        · exact ⟨events, e, [], a, rfl, ha, hitem, hwaiting, hnames⟩
      · rintro ⟨before, f, after, a, heq, ha, hitem, hwaiting, hnames⟩
        rcases List.eq_nil_or_concat after with rfl | ⟨rest, g, rfl⟩
        · obtain ⟨rfl, hlast⟩ := List.append_inj' heq rfl
          cases hlast
          exact ⟨a, ha, hitem, Or.inr ⟨hwaiting, hnames⟩⟩
        · rw [List.concat_eq_append, ← List.cons_append,
            ← List.append_assoc] at heq
          obtain ⟨rfl, -⟩ := List.append_inj' heq rfl
          obtain ⟨w, hw, hwitem⟩ := getElem?_ledger_append ha (f :: rest)
          have hsame : w.item = b.item := hwitem.trans hitem
          exact ⟨w, hw, hsame, Or.inl ((ih hw).mpr
            ⟨before, f, rest, a, rfl, ha, hwitem.symm, hwaiting,
              hsame ▸ hnames⟩)⟩

end B4n.Lib
