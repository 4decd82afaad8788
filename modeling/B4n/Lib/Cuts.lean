import B4n.Lib.Text

/-!
# Texts that are cut off

A text that is being written may be read at any moment, and what is read ends
anywhere: between two lines or inside one.  A search that succeeds in such a
beginning succeeds in the whole text with the same result, since it has not
looked further.

## Main results

* `find_append_of_some` — a word that was found is found at the same place.
* `find_snoc` — a character that is not in the word does not complete it.
-/

namespace B4n.Lib.Text

variable {α : Type} [BEq α] [LawfulBEq α]

/-- A word that was found stands in the text. -/
theorem find_add_length_le {word text : List α} {p : Nat} (h : find word text = some p) :
    p + word.length ≤ text.length := by
  induction text generalizing p with
  | nil =>
      unfold find at h
      split at h
      · rename_i hword
        cases h
        simpa using (List.isPrefixOf_iff_prefix.mp hword).length_le
      · cases h
  | cons a text ih =>
      unfold find at h
      split at h
      · rename_i hword
        cases h
        simpa using (List.isPrefixOf_iff_prefix.mp hword).length_le
      · obtain ⟨q, hq, rfl⟩ := Option.map_eq_some_iff.mp h
        have hle := ih hq
        rw [List.length_cons]
        omega

/-- A word that was found is found at the same place when the text goes on. -/
theorem find_append_of_some {word text : List α} {p : Nat} (h : find word text = some p)
    (more : List α) : find word (text ++ more) = some p := by
  induction text generalizing p with
  | nil =>
      have hword := find_add_length_le h
      rw [List.length_nil, Nat.le_zero, Nat.add_eq_zero_iff, List.length_eq_zero_iff] at hword
      obtain ⟨rfl, rfl⟩ := hword
      cases more with
      | nil => rfl
      | cons a more => rfl
  | cons a text ih =>
      unfold find at h
      rw [List.cons_append, find]
      split at h
      · rename_i hword
        cases h
        rw [if_pos]
        rw [List.isPrefixOf_iff_prefix] at hword ⊢
        exact hword.trans (List.prefix_append (a :: text) more)
      · rename_i hword
        obtain ⟨q, hq, rfl⟩ := Option.map_eq_some_iff.mp h
        have hle := find_add_length_le hq
        rw [if_neg, ih hq]
        · rfl
        · -- the word is no longer than what was read
          intro hlonger
          apply hword
          rw [List.isPrefixOf_iff_prefix] at hlonger ⊢
          apply List.prefix_of_prefix_length_le hlonger (List.prefix_append (a :: text) more)
          rw [List.length_cons]
          omega

/-- A character that is not in the word does not complete it. -/
theorem find_snoc {word : List α} (hne : word ≠ []) {c : α} (hc : c ∉ word) (text : List α) :
    find word (text ++ [c]) = find word text := by
  have hcomplete : ∀ text : List α,
      word.isPrefixOf (text ++ [c]) = word.isPrefixOf text := by
    intro text
    rw [Bool.eq_iff_iff, List.isPrefixOf_iff_prefix, List.isPrefixOf_iff_prefix,
      List.prefix_concat_iff]
    constructor
    · rintro (rfl | hin)
      · exact absurd (List.mem_append_right text (List.mem_singleton_self c)) hc
      · exact hin
    · exact .inr
  induction text with
  | nil =>
      have hnil : word.isPrefixOf ([] : List α) = false := by
        rw [Bool.eq_false_iff, ne_eq, List.isPrefixOf_iff_prefix, List.prefix_nil]
        exact hne
      have hone := hcomplete []
      rw [List.nil_append] at hone ⊢
      simp [find, hone, hnil]
  | cons a text ih =>
      have hone := hcomplete (a :: text)
      rw [List.cons_append] at hone ⊢
      rw [find, find, hone, ih]

end B4n.Lib.Text
