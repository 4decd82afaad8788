import B4n.Lib.Regex
import Mathlib.Data.List.Forall2

/-!
# Marks in a text

A mark is a word that begins with a character of its own and says a value.  The
marks of a text are read place by place, and since no mark begins inside another
one, what a text shows is put together from what its pieces show.

A piece `Shows` its marks only if nothing that comes behind it can add to them;
so pieces are put in a row without looking at their ends.

## Main results

* `Shows.append`, `Shows.intercalate` — pieces in a row.
* `Shows.upTo` — nothing is read across a character that no mark contains.
* `findAll_eq_marks` — a pattern that describes the marks finds all of them.
-/

namespace B4n.Lib

/-- How a value of type `β` is marked in a text, and how a mark is read. -/
structure MarkForm (α β : Type) where
  first : α
  /-- the mark behind its first character -/
  body : β → List α
  Valid : β → Prop
  /-- what the mark says that the text begins with -/
  read? : List α → Option β
  read?_eq_some_iff {text : List α} {b : β} :
    read? text = some b ↔ Valid b ∧ ∃ rest, text = first :: (body b ++ rest)
  first_not_mem {b : β} : Valid b → first ∉ body b

namespace MarkForm

variable {α β : Type} (form : MarkForm α β)

/-- What the marks of a text say, in order. -/
def marks : List α → List β
  | [] => []
  | a :: text => (form.read? (a :: text)).toList ++ marks text

/-- The text shows `found`, whatever comes behind it. -/
def Shows (w : List α) (found : List β) : Prop :=
  ∀ rest, form.marks (w ++ rest) = found ++ form.marks rest

/-- No mark contains the character. -/
def Separates (a : α) : Prop :=
  a ≠ form.first ∧ ∀ b, form.Valid b → a ∉ form.body b

@[simp] theorem marks_nil : form.marks [] = [] := rfl

variable {form}

theorem marks_cons_of_none {a : α} {text : List α} (h : form.read? (a :: text) = none) :
    form.marks (a :: text) = form.marks text := by
  simp [marks, h]

theorem read?_eq_none {text : List α}
    (h : ∀ b, form.Valid b → ∀ rest, text ≠ form.first :: (form.body b ++ rest)) :
    form.read? text = none := by
  rw [Option.eq_none_iff_forall_ne_some]
  intro b hb
  obtain ⟨hvalid, rest, hrest⟩ := form.read?_eq_some_iff.mp hb
  exact h b hvalid rest hrest

theorem read?_cons_of_ne {a : α} (ha : a ≠ form.first) (text : List α) :
    form.read? (a :: text) = none := by
  apply read?_eq_none
  intro b _ rest htext
  exact ha (List.cons.inj htext).1

theorem read?_mark {b : β} (hb : form.Valid b) (rest : List α) :
    form.read? (form.first :: (form.body b ++ rest)) = some b :=
  form.read?_eq_some_iff.mpr ⟨hb, rest, rfl⟩

/-- Without their first character there are no marks. -/
theorem marks_append_of_not_mem {w : List α} (hw : form.first ∉ w) (rest : List α) :
    form.marks (w ++ rest) = form.marks rest := by
  induction w with
  | nil => rfl
  | cons a w ih =>
      have ha : a ≠ form.first := fun h => hw (h ▸ List.mem_cons_self)
      rw [List.cons_append, marks_cons_of_none (read?_cons_of_ne ha _)]
      exact ih fun h => hw (List.mem_cons_of_mem a h)

theorem marks_mark {b : β} (hb : form.Valid b) (rest : List α) :
    form.marks (form.first :: (form.body b ++ rest)) = b :: form.marks rest := by
  rw [marks, read?_mark hb, marks_append_of_not_mem (form.first_not_mem hb)]
  rfl

/-- A mark ends before a character that it does not contain. -/
theorem read?_append_cons {a : α} (ha : form.Separates a) (w rest : List α) :
    form.read? (w ++ a :: rest) = form.read? w := by
  apply Option.ext
  intro b
  rw [form.read?_eq_some_iff, form.read?_eq_some_iff]
  constructor
  · rintro ⟨hb, behind, htext⟩
    refine ⟨hb, ?_⟩
    have hmem : a ∉ form.first :: form.body b := by
      simpa using ⟨ha.1, ha.2 b hb⟩
    rw [← List.cons_append, List.append_eq_append_iff] at htext
    rcases htext with ⟨t, hmark, ht⟩ | ⟨t, hmark, -⟩
    · -- the mark would go on with the separator
      cases t with
      | nil => exact ⟨[], by simpa using hmark.symm⟩
      | cons c t =>
          have hc : a = c := (List.cons.inj ht).1
          exact absurd (by simp [hmark, hc]) hmem
    · exact ⟨t, by simpa using hmark⟩
  · rintro ⟨hb, behind, htext⟩
    exact ⟨hb, behind ++ a :: rest, by simp [htext]⟩

/-- Nothing is read across a separator. -/
theorem marks_append_cons {a : α} (ha : form.Separates a) (w rest : List α) :
    form.marks (w ++ a :: rest) = form.marks w ++ form.marks rest := by
  induction w with
  | nil => exact marks_cons_of_none (read?_cons_of_ne ha.1 rest)
  | cons c w ih =>
      have hread := read?_append_cons ha (c :: w) rest
      rw [List.cons_append] at hread ⊢
      rw [marks, marks, hread, ih, List.append_assoc]

/-! ## Pieces of a text -/

namespace Shows

variable {v w : List α} {found found' : List β}

theorem marks_eq (h : form.Shows w found) : form.marks w = found := by
  have hend := h []
  simpa using hend

theorem nil : form.Shows [] [] := fun _ => rfl

theorem append (hv : form.Shows v found) (hw : form.Shows w found') :
    form.Shows (v ++ w) (found ++ found') := by
  intro rest
  rw [List.append_assoc, hv, hw, List.append_assoc]

/-- A piece without the first character of a mark. -/
theorem skip (hw : form.first ∉ w) : form.Shows w [] := marks_append_of_not_mem hw

/-- A piece that shows nothing does not matter. -/
theorem quiet_append (hv : form.Shows v []) (hw : form.Shows w found) :
    form.Shows (v ++ w) found := hv.append hw

theorem append_quiet (hv : form.Shows v found) (hw : form.Shows w []) :
    form.Shows (v ++ w) found := by
  simpa using hv.append hw

/-- A mark. -/
theorem mark {b : β} (hb : form.Valid b) : form.Shows (form.first :: form.body b) [b] :=
  marks_mark hb

/-- The first character of a mark with something else behind it. -/
theorem first_cons (hread : ∀ rest, form.read? (form.first :: (w ++ rest)) = none)
    (hw : form.Shows w found) : form.Shows (form.first :: w) found := by
  intro rest
  rw [List.cons_append, marks_cons_of_none (hread rest), hw]

/-- Anything up to a separator. -/
theorem upTo {a : α} (ha : form.Separates a) (w : List α) :
    form.Shows (w ++ [a]) (form.marks w) := by
  intro rest
  rw [List.append_assoc]
  exact marks_append_cons ha w rest

theorem flatMap {ι : Type} {f : ι → List α} {g : ι → List β}
    (h : ∀ x, form.Shows (f x) (g x)) (xs : List ι) :
    form.Shows (xs.flatMap f) (xs.flatMap g) := by
  induction xs with
  | nil => exact nil
  | cons x xs ih =>
      rw [List.flatMap_cons, List.flatMap_cons]
      exact (h x).append ih

/-- Pieces with something between them that shows nothing. -/
theorem intercalate {sep : List α} (hsep : form.Shows sep []) {items : List (List α)}
    {founds : List (List β)} (h : List.Forall₂ form.Shows items founds) :
    form.Shows (sep.intercalate items) founds.flatten := by
  induction h with
  | nil => exact nil
  | @cons w found items founds hw hitems ih =>
      cases hitems with
      | nil => simpa using hw
      | cons hv hmore =>
          rw [List.intercalate_cons_cons]
          simpa using (hw.append hsep).append ih

end Shows

/-! ## Finding the marks with a pattern -/

section Patterns

variable {ν : Type} {r : Regex α ν} {f : Cursor α ν → β}

/-- A pattern that matches the marks and nothing else finds all of them. -/
theorem findAllLoop_eq_marks
    (hmark : ∀ before b rest, form.Valid b → ∃ before' groups,
      r.matchAt before (form.first :: (form.body b ++ rest)) = some ⟨before', rest, groups⟩ ∧
        f ⟨before', rest, groups⟩ = b)
    (honly : ∀ before text, form.read? text = none → r.matchAt before text = none)
    {fuel : Nat} {before text : List α} (hfuel : text.length ≤ fuel) :
    (r.findAllLoop fuel before text).map f = form.marks text := by
  induction fuel generalizing before text with
  | zero =>
      rw [List.length_eq_zero_iff.mp (Nat.le_zero.mp hfuel)]
      rfl
  | succ fuel ih =>
      cases text with
      | nil => rfl
      | cons a text =>
          simp only [List.length_cons] at hfuel
          cases hread : form.read? (a :: text) with
          | none =>
              simp only [Regex.findAllLoop, honly before _ hread]
              rw [marks_cons_of_none hread]
              exact ih (by omega)
          | some b =>
              obtain ⟨hb, rest, htext⟩ := form.read?_eq_some_iff.mp hread
              obtain ⟨before', groups, hmatch, hsays⟩ := hmark before b rest hb
              have hlen : rest.length ≤ text.length := by
                rw [(List.cons.inj htext).2, List.length_append]
                omega
              rw [htext, marks_mark hb, ← htext]
              rw [← htext] at hmatch
              simp only [Regex.findAllLoop, hmatch, if_pos hlen, List.map_cons, hsays]
              rw [ih (hlen.trans (by omega))]

theorem findAll_eq_marks
    (hmark : ∀ before b rest, form.Valid b → ∃ before' groups,
      r.matchAt before (form.first :: (form.body b ++ rest)) = some ⟨before', rest, groups⟩ ∧
        f ⟨before', rest, groups⟩ = b)
    (honly : ∀ before text, form.read? text = none → r.matchAt before text = none)
    (before text : List α) : (r.findAll before text).map f = form.marks text :=
  findAllLoop_eq_marks hmark honly (Nat.le_refl _)

end Patterns

end MarkForm

end B4n.Lib
