import Mathlib.Algebra.GroupWithZero.Nat
import Mathlib.Data.List.AList
import Mathlib.Data.List.Perm.Basic

/-!
# Hash maps of buckets

A hash map is an association list without repeated keys; its entry order
stands for nothing.  A map of buckets files items under keys.  This module
counts the items a map of buckets holds and says which item is held under
which key after each operation.
-/

namespace B4n.Lib

/-- A `HashMap`, up to its iteration order. -/
abbrev HashMap (κ β : Type) := AList (fun _ : κ => β)

/-! ## `Vec::swap_remove` -/

variable {β : Type}

/-- What `Vec::swap_remove` leaves: the last element takes the place of the
removed one. -/
def swapRemove (vec : List β) (pos : Nat) : List β :=
  match vec.getLast? with
  | some lastItem => (vec.set pos lastItem).dropLast
  | none => []

/-- The removed element and the rest are the old elements. -/
theorem swapRemove_perm (vec : List β) (pos : Fin vec.length) :
    (vec.get pos :: swapRemove vec pos).Perm vec := by
  have hpos := pos.isLt
  rcases List.eq_nil_or_concat vec with rfl | ⟨front, lastItem, rfl⟩
  · simp at hpos
  obtain ⟨pos, hlt⟩ := pos
  simp only [List.concat_eq_append, List.length_append, List.length_singleton]
    at hlt
  simp only [List.concat_eq_append, swapRemove, List.getLast?_append,
    List.getLast?_singleton, Option.some_or, List.get_eq_getElem]
  by_cases hLast : pos = front.length
  · subst hLast
    simp only [List.getElem_concat_length, List.set_append_right _ _ (Nat.le_refl _),
      Nat.sub_self, List.set_cons_zero, List.dropLast_concat]
    exact (List.perm_append_singleton _ _).symm
  · have hFront : pos < front.length := by omega
    rw [List.getElem_append_left hFront, List.set_append_left _ _ hFront,
      List.dropLast_concat]
    have hset : (front[pos] :: front.set pos lastItem).Perm
        (lastItem :: front) := by
      rw [List.set_eq_take_append_cons_drop, if_pos hFront]
      conv_rhs => rw [← List.take_append_drop pos front,
        List.drop_eq_getElem_cons hFront]
      refine (List.Perm.cons _ List.perm_middle).trans
        ((List.Perm.swap _ _ _).trans (List.Perm.cons _ ?_))
      exact List.perm_middle.symm
    exact hset.trans (List.perm_append_singleton _ _).symm

theorem mem_of_mem_swapRemove {vec : List β} (pos : Fin vec.length) {b : β}
    (hb : b ∈ swapRemove vec pos) : b ∈ vec :=
  (swapRemove_perm vec pos).subset (List.mem_cons_of_mem _ hb)

theorem length_swapRemove (vec : List β) (pos : Fin vec.length) :
    (swapRemove vec pos).length + 1 = vec.length := by
  have hlen := (swapRemove_perm vec pos).length_eq
  rwa [List.length_cons] at hlen

/-- Removing from a vector of one element. -/
theorem swapRemove_of_length_le_one {vec : List β} (pos : Fin vec.length)
    (hone : vec.length ≤ 1) : vec = [vec.get pos] ∧ swapRemove vec pos = [] := by
  have hlength := length_swapRemove vec pos
  constructor
  · cases vec with
    | nil => exact pos.elim0
    | cons b rest =>
        have hrest : rest = [] := by
          rw [← List.length_eq_zero_iff]
          rw [List.length_cons] at hone
          omega
        subst hrest
        rw [Fin.fin_one_eq_zero pos]
        rfl
  · rw [← List.length_eq_zero_iff]
    omega

/-! ## Items held by a map of buckets -/

variable {κ : Type} [DecidableEq κ]

/-- The number of items in all buckets. -/
def held (buckets : HashMap κ (List β)) : Nat :=
  (buckets.entries.map fun entry => entry.2.length).sum

/-- An item is filed under a key. -/
def Files (buckets : HashMap κ (List β)) (key : κ) (item : β) : Prop :=
  ∃ vec, buckets.lookup key = some vec ∧ item ∈ vec

omit [DecidableEq κ] in
@[simp] theorem held_empty : held (∅ : HashMap κ (List β)) = 0 := rfl

theorem held_erase {buckets : HashMap κ (List β)} {key : κ} {vec : List β}
    (hvec : buckets.lookup key = some vec) :
    held (buckets.erase key) + vec.length = held buckets := by
  have hmem : key ∈ buckets.entries.keys := by
    have hIn : key ∈ buckets := AList.lookup_isSome.mp (by simp [hvec])
    exact hIn
  obtain ⟨found, front, back, hfront, hentries, hErased⟩ :=
    List.exists_of_kerase hmem
  have hfound : found = vec := by
    have hlook := hvec
    rw [AList.lookup, hentries, List.dlookup_append,
      List.dlookup_eq_none.mpr hfront] at hlook
    simpa using hlook
  subst hfound
  have hAfter : held (buckets.erase key) =
      ((front ++ back).map fun entry => entry.2.length).sum := by
    rw [← hErased]
    rfl
  rw [hAfter, held, hentries]
  simp only [List.map_append, List.map_cons, List.sum_append, List.sum_cons]
  omega

theorem held_erase_of_none {buckets : HashMap κ (List β)} {key : κ}
    (hnone : buckets.lookup key = none) :
    held (buckets.erase key) = held buckets := by
  have hnot : key ∉ buckets.entries.keys := AList.lookup_eq_none.mp hnone
  show ((buckets.entries.kerase key).map _).sum = _
  rw [List.kerase_of_notMem_keys hnot]
  rfl

theorem held_insert (buckets : HashMap κ (List β)) (key : κ) (vec : List β) :
    held (buckets.insert key vec) = vec.length + held (buckets.erase key) := by
  unfold held
  rw [AList.entries_insert, List.map_cons, List.sum_cons]
  rfl

/-- Replacing a bucket changes the count by the difference of the lengths. -/
theorem held_insert_getD (buckets : HashMap κ (List β)) (key : κ)
    (vec : List β) :
    held (buckets.insert key vec) + ((buckets.lookup key).getD []).length =
      vec.length + held buckets := by
  rw [held_insert]
  cases hold : buckets.lookup key with
  | none => simp [held_erase_of_none hold]
  | some old =>
      have herase := held_erase hold
      simp only [Option.getD_some]
      omega

theorem files_insert (buckets : HashMap κ (List β)) (key other : κ)
    (vec : List β) (item : β) :
    Files (buckets.insert key vec) other item ↔
      if other = key then item ∈ vec else Files buckets other item := by
  unfold Files
  by_cases hkey : other = key
  · subst hkey
    simp [AList.lookup_insert]
  · simp [AList.lookup_insert_ne hkey, hkey]

theorem files_erase (buckets : HashMap κ (List β)) (key other : κ) (item : β) :
    Files (buckets.erase key) other item ↔
      other ≠ key ∧ Files buckets other item := by
  unfold Files
  by_cases hkey : other = key
  · subst hkey
    simp [AList.lookup_erase]
  · simp [AList.lookup_erase_ne hkey, hkey]

/-- The items of the bucket under a key, none if there is no bucket. -/
theorem mem_getD_iff (buckets : HashMap κ (List β)) (key : κ) (item : β) :
    item ∈ (buckets.lookup key).getD [] ↔ Files buckets key item := by
  unfold Files
  cases hvec : buckets.lookup key with
  | none => simp
  | some vec => simp

/-- No bucket is empty, and none holds more than `cap` items. -/
def Filled (cap : Nat) (buckets : HashMap κ (List β)) : Prop :=
  ∀ key vec, buckets.lookup key = some vec → 1 ≤ vec.length ∧ vec.length ≤ cap

theorem filled_empty (cap : Nat) : Filled cap (∅ : HashMap κ (List β)) := by
  intro key vec hvec
  cases hvec

theorem Filled.insert {cap : Nat} {buckets : HashMap κ (List β)}
    (h : Filled cap buckets) (key : κ) {vec : List β} (hpos : 1 ≤ vec.length)
    (hle : vec.length ≤ cap) : Filled cap (buckets.insert key vec) := by
  intro other found hfound
  by_cases hkey : other = key
  · rw [hkey, AList.lookup_insert] at hfound
    cases hfound
    exact ⟨hpos, hle⟩
  · rw [AList.lookup_insert_ne hkey] at hfound
    exact h other found hfound

theorem Filled.erase {cap : Nat} {buckets : HashMap κ (List β)}
    (h : Filled cap buckets) (key : κ) : Filled cap (buckets.erase key) := by
  intro other found hfound
  by_cases hkey : other = key
  · rw [hkey, AList.lookup_erase] at hfound
    cases hfound
  · rw [AList.lookup_erase_ne hkey] at hfound
    exact h other found hfound

/-- The bucket under a key has room for at most the capacity. -/
theorem Filled.length_getD_le {cap : Nat} {buckets : HashMap κ (List β)}
    (h : Filled cap buckets) (key : κ) :
    ((buckets.lookup key).getD []).length ≤ cap := by
  cases hvec : buckets.lookup key with
  | none => exact Nat.zero_le _
  | some vec => exact (h key vec hvec).2

/-- A map that holds nothing files nothing. -/
theorem not_files_of_held_eq_zero {buckets : HashMap κ (List β)}
    (hzero : held buckets = 0) (key : κ) (item : β) :
    ¬ Files buckets key item := by
  rintro ⟨vec, hvec, hitem⟩
  have herase := held_erase hvec
  have hpos := List.length_pos_of_mem hitem
  omega

end B4n.Lib
