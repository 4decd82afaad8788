import Mathlib.Data.List.Basic

/-!
# Texts with separators

A text is taken apart at the first or at the last occurrence of a separator.  What
stands on the side that the separator is looked for from does not contain it, and
this is all that makes the two parts unique.

## Main results

* `splitOnce_eq_some_iff`, `rsplitOnce_eq_some_iff` — the parts of a text.
* `append_sep_inj` — a text has one first part only.
-/

namespace B4n.Lib.Text

variable {α : Type} [DecidableEq α]

/-- The parts before and behind the first separator. -/
def splitOnce (sep : α) : List α → Option (List α × List α)
  | [] => none
  | a :: text =>
      if a = sep then some ([], text)
      else (splitOnce sep text).map fun parts => (a :: parts.1, parts.2)

theorem splitOnce_append {sep : α} {v : List α} (hv : sep ∉ v) (w : List α) :
    splitOnce sep (v ++ sep :: w) = some (v, w) := by
  induction v with
  | nil => simp [splitOnce]
  | cons a v ih =>
      rw [List.mem_cons, not_or] at hv
      rw [List.cons_append, splitOnce, if_neg (Ne.symm hv.1), ih hv.2]
      rfl

theorem splitOnce_eq_some_iff {sep : α} {text v w : List α} :
    splitOnce sep text = some (v, w) ↔ text = v ++ sep :: w ∧ sep ∉ v := by
  constructor
  · intro h
    induction text generalizing v with
    | nil => cases h
    | cons a text ih =>
        rw [splitOnce] at h
        by_cases ha : a = sep
        · rw [if_pos ha, Option.some.injEq, Prod.mk.injEq] at h
          obtain ⟨rfl, rfl⟩ := h
          exact ⟨by rw [ha]; rfl, List.not_mem_nil⟩
        · rw [if_neg ha, Option.map_eq_some_iff] at h
          obtain ⟨⟨v', w'⟩, hrest, hparts⟩ := h
          obtain ⟨rfl, rfl⟩ := Prod.mk.inj hparts
          obtain ⟨rfl, hv⟩ := ih hrest
          refine ⟨rfl, ?_⟩
          rw [List.mem_cons, not_or]
          exact ⟨Ne.symm ha, hv⟩
  · rintro ⟨rfl, hv⟩
    exact splitOnce_append hv w

/-- The first part and the rest are determined by the text. -/
theorem append_sep_inj {sep : α} {v v' w w' : List α} (hv : sep ∉ v) (hv' : sep ∉ v')
    (h : v ++ sep :: w = v' ++ sep :: w') : v = v' ∧ w = w' := by
  have hparts := splitOnce_append hv w
  rw [h, splitOnce_append hv' w', Option.some.injEq] at hparts
  exact ⟨(Prod.mk.inj hparts).1.symm, (Prod.mk.inj hparts).2.symm⟩

end B4n.Lib.Text
