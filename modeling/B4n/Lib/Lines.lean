import Mathlib.Data.List.Infix

/-!
# Texts that grow line by line

A text that is read again and again while another program appends to it is seen
in two states of which the second extends the first.  Of their lines, all but
the last of the first state stay as they are, and that one may have been cut
anywhere.  So a property of lines that survives an extension at the end, such as
beginning with a fixed word, is met by the same lines in both states, and the
lines that meet it only in the second state come after them.

## Main results

* `Grown.prefix_positions` — the lines with a property are found again first.
* `Padded.positions_eq` — a character at the end that the property does not
  look at changes nothing.
* `Torn.find_cases` — what is found among the next lines of both states.
* `Woven.split` — the lines of one writer among those of others.
-/

namespace B4n.Lib

variable {α : Type}

/-- Put a character in front of the first line. -/
def consHead (a : α) : List (List α) → List (List α)
  | [] => [[a]]
  | line :: lines => (a :: line) :: lines

/-- The lines of a text and those of a longer one. -/
inductive Grown : List (List α) → List (List α) → Prop
  | nil (lines : List (List α)) : Grown [] lines
  | last (line more : List α) (lines : List (List α)) : Grown [line] ((line ++ more) :: lines)
  | cons (line : List α) {lines lines' : List (List α)} :
      Grown lines lines' → Grown (line :: lines) (line :: lines')

theorem Grown.consHead {lines lines' : List (List α)} (h : Grown lines lines') (a : α) :
    Grown (consHead a lines) (consHead a lines') := by
  cases h with
  | nil =>
      cases lines' with
      | nil => exact .last [a] [] []
      | cons line lines => exact .last [a] line lines
  | last line more lines => exact .last (a :: line) more lines
  | cons line h => exact .cons (a :: line) h

/-- The lines of a text before and after the character `c` is put at its end,
which ends no line. -/
inductive Padded (c : α) : List (List α) → List (List α) → Prop
  | nil : Padded c [] [[c]]
  | last (line : List α) : Padded c [line] [line ++ [c]]
  | cons (line : List α) {lines lines' : List (List α)} :
      Padded c lines lines' → Padded c (line :: lines) (line :: lines')

theorem Padded.consHead {c : α} {lines lines' : List (List α)} (h : Padded c lines lines')
    (a : α) : Padded c (consHead a lines) (consHead a lines') := by
  cases h with
  | nil => exact .last [a]
  | last line => exact .last (a :: line)
  | cons line h => exact .cons (a :: line) h

/-! ## Lines with a property -/

/-- The positions of the lines with a property, counted from `idx`. -/
def positions (p : List α → Bool) : Nat → List (List α) → List Nat
  | _, [] => []
  | idx, line :: lines =>
      if p line then idx :: positions p (idx + 1) lines else positions p (idx + 1) lines

theorem length_positions (p : List α → Bool) (idx : Nat) (lines : List (List α)) :
    (positions p idx lines).length = lines.countP p := by
  induction lines generalizing idx with
  | nil => rfl
  | cons line lines ih =>
      unfold positions
      by_cases hline : p line = true
      · rw [if_pos hline, List.length_cons, ih, List.countP_cons_of_pos hline]
      · rw [if_neg hline, ih, List.countP_cons_of_neg hline]

theorem le_of_mem_positions {p : List α → Bool} {idx i : Nat} {lines : List (List α)}
    (h : i ∈ positions p idx lines) : idx ≤ i := by
  induction lines generalizing idx with
  | nil => simp [positions] at h
  | cons line lines ih =>
      unfold positions at h
      split at h
      · rcases List.mem_cons.mp h with rfl | hmore
        · exact Nat.le_refl _
        · exact Nat.le_of_succ_le (ih hmore)
      · exact Nat.le_of_succ_le (ih h)

/-- The positions come in order. -/
theorem pairwise_positions (p : List α → Bool) (idx : Nat) (lines : List (List α)) :
    (positions p idx lines).Pairwise (· < ·) := by
  induction lines generalizing idx with
  | nil => exact .nil
  | cons line lines ih =>
      unfold positions
      split
      · exact .cons (fun i hi => le_of_mem_positions hi) (ih (idx + 1))
      · exact ih (idx + 1)

/-- Lines without the property are passed over. -/
theorem positions_append_of_forall {p : List α → Bool} {gap : List (List α)}
    (hgap : ∀ line ∈ gap, p line = false) (idx : Nat) (rest : List (List α)) :
    positions p idx (gap ++ rest) = positions p (idx + gap.length) rest := by
  induction gap generalizing idx with
  | nil => rfl
  | cons line gap ih =>
      have hline : ¬ p line = true := by simp [hgap line List.mem_cons_self]
      rw [List.cons_append, positions, if_neg hline,
        ih fun other hother => hgap other (List.mem_cons_of_mem line hother), List.length_cons]
      congr 1
      omega

/-- What stands beside something that is found behind the first `n`, and nowhere else,
is behind the first `n` itself. -/
theorem mem_drop_of_mem_zip {β γ : Type} {xs : List β} {ys : List γ} (hxs : xs.Nodup) {n : Nat}
    {x : β} {y : γ} (h : (x, y) ∈ xs.zip ys) (hx : x ∈ xs.drop n) : y ∈ ys.drop n := by
  have htake : (xs.zip ys).take n = (xs.take n).zip (ys.take n) := List.take_zipWith
  have hdrop : (xs.zip ys).drop n = (xs.drop n).zip (ys.drop n) := List.drop_zipWith
  rw [← List.take_append_drop n (xs.zip ys), htake, hdrop] at h
  rcases List.mem_append.mp h with hfirst | hlater
  · exact absurd hx (List.disjoint_take_drop hxs (Nat.le_refl n) (List.of_mem_zip hfirst).1)
  · exact (List.of_mem_zip hlater).2

/-- In a longer text, the lines with the property are found again, before all
others that have it. -/
theorem Grown.prefix_positions {p : List α → Bool}
    (hp : ∀ line more, p line = true → p (line ++ more) = true)
    {lines lines' : List (List α)} (h : Grown lines lines') (idx : Nat) :
    positions p idx lines <+: positions p idx lines' := by
  induction h generalizing idx with
  | nil lines => exact List.nil_prefix
  | last line more lines =>
      by_cases hline : p line = true
      · simp only [positions, hline, hp line more hline, if_true]
        exact ⟨positions p (idx + 1) lines, rfl⟩
      · simp only [positions, hline]
        exact List.nil_prefix
  | cons line _ ih =>
      unfold positions
      split
      · exact (List.prefix_cons_inj idx).mpr (ih (idx + 1))
      · exact ih (idx + 1)

/-- A character at the end that the property does not look at. -/
theorem Padded.positions_eq {p : List α → Bool} {c : α} (hnil : p [] = false)
    (hp : ∀ line, p (line ++ [c]) = p line) {lines lines' : List (List α)}
    (h : Padded c lines lines') (idx : Nat) :
    positions p idx lines' = positions p idx lines := by
  induction h generalizing idx with
  | nil =>
      have hone : p [c] = false := (hp []).trans hnil
      simp [positions, hone]
  | last line => simp only [positions, hp]
  | cons line _ ih => simp only [positions, ih]

/-! ## Lines that are read too early -/

/-- What is read of a line that is being written: a beginning, behind which the
character `c` may stand for what was cut. -/
def CutTo (c : α) (read line : List α) : Prop :=
  read <+: line ∨ ∃ w, read = w ++ [c] ∧ w <+: line

theorem CutTo.cons {c : α} {read line : List α} (h : CutTo c read line) (a : α) :
    CutTo c (a :: read) (a :: line) := by
  rcases h with hread | ⟨w, rfl, hw⟩
  · exact .inl ((List.prefix_cons_inj a).mpr hread)
  · exact .inr ⟨a :: w, rfl, (List.prefix_cons_inj a).mpr hw⟩

/-- The lines that are read of a text that is being written, and those that it
has later. -/
inductive Torn (c : α) : List (List α) → List (List α) → Prop
  | nil (lines : List (List α)) : Torn c [] lines
  | last {read line : List α} (lines : List (List α)) :
      CutTo c read line → Torn c [read] (line :: lines)
  | mark : Torn c [[c]] []
  | cons (line : List α) {lines lines' : List (List α)} :
      Torn c lines lines' → Torn c (line :: lines) (line :: lines')

theorem Grown.torn (c : α) {lines lines' : List (List α)} (h : Grown lines lines') :
    Torn c lines lines' := by
  induction h with
  | nil lines => exact .nil lines
  | last line more lines => exact .last lines (.inl (List.prefix_append line more))
  | cons line _ ih => exact .cons line ih

/-- The mark alone is what is read of any lines. -/
theorem Torn.of_mark (c : α) (lines : List (List α)) : Torn c [[c]] lines := by
  cases lines with
  | nil => exact .mark
  | cons line lines => exact .last lines (.inr ⟨[], rfl, List.nil_prefix⟩)

theorem Torn.consHead {c : α} {lines lines' : List (List α)} (h : Torn c lines lines') (a : α) :
    Torn c (consHead a lines) (consHead a lines') := by
  cases h with
  | nil =>
      cases lines' with
      | nil => exact .last [] (.inl List.prefix_rfl)
      | cons line lines => exact .last lines (.inl ⟨line, rfl⟩)
  | last lines hcut => exact .last lines (hcut.cons a)
  | mark => exact .last [] (.inr ⟨[a], rfl, List.prefix_rfl⟩)
  | cons line h => exact .cons (a :: line) h

/-- Among the next lines, both states show the same line with a property; or none
of the lines that were read has it; or the line that was read too early is the
only one. -/
theorem Torn.find_cases {c : α} {p : List α → Bool}
    (hp : ∀ read line, CutTo c read line → p read = true → p line = true)
    (hnil : p [] = false) {lines lines' : List (List α)} (h : Torn c lines lines') (n : Nat) :
    (lines.take n).find? p = (lines'.take n).find? p ∨ (∀ line ∈ lines, p line = false) ∨
      ∃ read line, CutTo c read line ∧ (lines.take n).find? p = some read ∧
        (lines'.take n).find? p = some line ∧ ∀ other ∈ lines, p other = true → other = read := by
  induction h generalizing n with
  | nil lines' => exact .inr (.inl fun line hline => absurd hline List.not_mem_nil)
  | @last read line lines hcut =>
      by_cases hread : p read = true
      · cases n with
        | zero => exact .inl rfl
        | succ n =>
            refine .inr (.inr ⟨read, line, hcut, ?_, ?_, ?_⟩)
            · rw [List.take_succ_cons, List.find?_cons_of_pos hread]
            · rw [List.take_succ_cons, List.find?_cons_of_pos (hp read line hcut hread)]
            · exact fun other hother _ => List.mem_singleton.mp hother
      · exact .inr (.inl (by simpa using hread))
  | mark =>
      have hmark : p [c] = false := by
        apply Bool.eq_false_iff.mpr
        intro hread
        have hempty := hp [c] [] (.inr ⟨[], rfl, List.prefix_rfl⟩) hread
        rw [hnil] at hempty
        cases hempty
      exact .inr (.inl (by simpa using hmark))
  | @cons line lines lines' _ ih =>
      cases n with
      | zero => exact .inl rfl
      | succ n =>
          rw [List.take_succ_cons, List.take_succ_cons]
          by_cases hline : p line = true
          · rw [List.find?_cons_of_pos hline, List.find?_cons_of_pos hline]
            exact .inl rfl
          rw [List.find?_cons_of_neg hline, List.find?_cons_of_neg hline]
          rcases ih n with hsame | hnone | ⟨read, late, hcut, hearly, hlate, honly⟩
          · exact .inl hsame
          · refine .inr (.inl fun other hother => ?_)
            rcases List.mem_cons.mp hother with rfl | hmore
            · exact Bool.eq_false_iff.mpr hline
            · exact hnone other hmore
          · refine .inr (.inr ⟨read, late, hcut, hearly, hlate, fun other hother hfound => ?_⟩)
            rcases List.mem_cons.mp hother with rfl | hmore
            · exact absurd hfound hline
            · exact honly other hmore hfound

/-! ## Lines of two writers -/

/-- The lines `own` in their order, with other lines between them. -/
inductive Woven (other : List α → Prop) : List (List α) → List (List α) → Prop
  | nil : Woven other [] []
  | own (line : List α) {own lines : List (List α)} :
      Woven other own lines → Woven other (line :: own) (line :: lines)
  | between {line : List α} {own lines : List (List α)} :
      other line → Woven other own lines → Woven other own (line :: lines)

/-- Without other lines. -/
theorem Woven.refl (other : List α → Prop) (own : List (List α)) : Woven other own own := by
  induction own with
  | nil => exact .nil
  | cons line own ih => exact .own line ih

theorem Woven.append {other : List α → Prop} {own own' lines lines' : List (List α)}
    (h : Woven other own lines) (h' : Woven other own' lines') :
    Woven other (own ++ own') (lines ++ lines') := by
  induction h with
  | nil => exact h'
  | own line _ ih => exact .own line ih
  | between hother _ ih => exact .between hother ih

/-- The next own line stands behind other lines. -/
theorem Woven.split {other : List α → Prop} {line : List α} {own lines : List (List α)}
    (h : Woven other (line :: own) lines) :
    ∃ gap rest, lines = gap ++ line :: rest ∧ (∀ w ∈ gap, other w) ∧ Woven other own rest := by
  generalize hown : line :: own = all at h
  induction h with
  | nil => cases hown
  | own first h _ =>
      cases hown
      exact ⟨[], _, rfl, by simp, h⟩
  | @between first _ _ hother _ ih =>
      obtain ⟨gap, rest, rfl, hgap, hrest⟩ := ih hown
      refine ⟨first :: gap, rest, rfl, ?_, hrest⟩
      intro w hw
      rcases List.mem_cons.mp hw with rfl | hmore
      · exact hother
      · exact hgap w hmore

/-- Behind the last own line there are only other lines. -/
theorem Woven.others {other : List α → Prop} {lines : List (List α)}
    (h : Woven other [] lines) : ∀ w ∈ lines, other w := by
  generalize hown : ([] : List (List α)) = own at h
  induction h with
  | nil => simp
  | own first h _ => cases hown
  | between hother _ ih =>
      intro w hw
      rcases List.mem_cons.mp hw with rfl | hmore
      · exact hother
      · exact ih hown w hmore

end B4n.Lib
