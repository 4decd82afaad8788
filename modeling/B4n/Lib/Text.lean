import Mathlib.Data.List.Infix
import Mathlib.Data.List.TakeWhile

/-!
# Searching and nesting in texts

The first occurrence of a word in a text, and texts whose brackets, braces and
double quotes nest.

A text avoids a word when no occurrence of the word can start inside it,
whatever comes after.  That is a property which both a fixed text and a run of
digits have on their own and which concatenation keeps, so that the first
occurrence of a marker is found by looking at the pieces of a text.

## Main results

* `find_append` — behind a text that avoids it, a word is found at once.
* `Nested.append`, `Nested.intercalate` — how nested texts compose.
* `Scanner.loop_nested` — a scanner comes out of a nested text as it went in.
-/

namespace B4n.Lib.Text

/-! ## Trimming -/

section Trimming

variable {α : Type}

/-- Drop the elements that satisfy `p` from both ends. -/
def trimBy (p : α → Bool) (text : List α) : List α :=
  ((text.dropWhile p).reverse.dropWhile p).reverse

/-- The last element of the text, if there is one, does not satisfy `p`. -/
def TrimmedEnd (p : α → Bool) (text : List α) : Prop :=
  ∀ c, text.getLast? = some c → p c = false

/-- Neither end of the text satisfies `p`. -/
structure Trimmed (p : α → Bool) (text : List α) : Prop where
  head : ∀ c, text.head? = some c → p c = false
  last : TrimmedEnd p text

theorem trimmed_trimBy (p : α → Bool) (text : List α) : Trimmed p (trimBy p text) := by
  constructor
  · intro c hc
    -- what is dropped at the end does not uncover the front
    have hpre : trimBy p text <+: text.dropWhile p := by
      rw [trimBy, ← List.reverse_suffix, List.reverse_reverse]
      exact List.dropWhile_suffix p
    obtain ⟨rest, hrest⟩ := hpre
    have hhead : (text.dropWhile p).head? = some c := by
      rw [← hrest, List.head?_append, hc]
      rfl
    have hnot := List.head?_dropWhile_not p text
    rw [hhead] at hnot
    simpa using hnot
  · intro c hc
    rw [trimBy, List.getLast?_reverse] at hc
    have hnot := List.head?_dropWhile_not p (text.dropWhile p).reverse
    rw [hc] at hnot
    simpa using hnot

theorem dropWhile_eq_self {p : α → Bool} {text : List α}
    (h : ∀ c, text.head? = some c → p c = false) : text.dropWhile p = text := by
  cases text with
  | nil => rfl
  | cons c text => simp [h c rfl]

/-- A text that does not end in `p` loses nothing at its end. -/
theorem TrimmedEnd.dropWhile_reverse {p : α → Bool} {text : List α}
    (h : TrimmedEnd p text) : (text.reverse.dropWhile p).reverse = text := by
  rw [dropWhile_eq_self (by rwa [List.head?_reverse]), List.reverse_reverse]

theorem Trimmed.trimBy_eq {p : α → Bool} {text : List α} (h : Trimmed p text) :
    trimBy p text = text := by
  rw [trimBy, dropWhile_eq_self h.head, h.last.dropWhile_reverse]

/-- A text that is trimmed of more is trimmed of less. -/
theorem TrimmedEnd.mono {p q : α → Bool} {text : List α} (h : TrimmedEnd p text)
    (hle : ∀ c, q c = true → p c = true) : TrimmedEnd q text := by
  intro c hc
  apply Bool.eq_false_iff.mpr
  intro hq
  exact absurd (hle c hq) (by simp [h c hc])

theorem Trimmed.mono {p q : α → Bool} {text : List α} (h : Trimmed p text)
    (hle : ∀ c, q c = true → p c = true) : Trimmed q text := by
  refine ⟨fun c hc => ?_, h.last.mono hle⟩
  apply Bool.eq_false_iff.mpr
  intro hq
  exact absurd (hle c hq) (by simp [h.head c hc])

/-- Something in front does not matter for the end. -/
theorem TrimmedEnd.append {p : α → Bool} {text : List α} (h : TrimmedEnd p text)
    (hne : text ≠ []) (front : List α) : TrimmedEnd p (front ++ text) := by
  intro c hc
  rw [List.getLast?_append_of_ne_nil _ hne] at hc
  exact h c hc

end Trimming

variable {α : Type} [BEq α]

/-! ## Occurrences -/

/-- The position of the first occurrence of `word`. -/
def find (word : List α) : List α → Option Nat
  | [] => if word.isPrefixOf [] then some 0 else none
  | a :: text =>
      if word.isPrefixOf (a :: text) then some 0 else (find word text).map (· + 1)

/-- Inside the text, `word` and what is left always differ. -/
def avoids (word : List α) : List α → Bool
  | [] => true
  | a :: text =>
      !(a :: text).isPrefixOf word && !word.isPrefixOf (a :: text) && avoids word text

theorem avoids_cons {word text : List α} {a : α} :
    avoids word (a :: text) =
      (!(a :: text).isPrefixOf word && !word.isPrefixOf (a :: text) &&
        avoids word text) := rfl

variable [LawfulBEq α]

/-- No occurrence of an avoided word starts inside the text. -/
theorem not_prefix_of_avoids {word text w : List α} (h : avoids word text = true)
    (hw : w <:+ text) (hne : w ≠ []) (rest : List α) : ¬ word <+: w ++ rest := by
  induction text with
  | nil => exact absurd (List.suffix_nil.mp hw) hne
  | cons a text ih =>
      simp only [avoids_cons, Bool.and_eq_true, Bool.not_eq_true'] at h
      rcases List.suffix_cons_iff.mp hw with rfl | hw
      · intro hpre
        rcases List.prefix_or_prefix_of_prefix hpre (List.prefix_append _ _) with hin | hout
        · simp [List.isPrefixOf_iff_prefix.mpr hin] at h
        · simp [List.isPrefixOf_iff_prefix.mpr hout] at h
      · exact ih h.2 hw

theorem avoids_append {word v w : List α} (hv : avoids word v = true)
    (hw : avoids word w = true) : avoids word (v ++ w) = true := by
  induction v with
  | nil => exact hw
  | cons a v ih =>
      have hoccurs := not_prefix_of_avoids hv List.suffix_rfl (by simp) w
      simp only [List.cons_append, avoids_cons, Bool.and_eq_true, Bool.not_eq_true'] at hv ⊢
      refine ⟨⟨?_, ?_⟩, ih hv.2⟩
      · apply Bool.eq_false_iff.mpr
        intro hpre
        have hin := (List.prefix_append (a :: v) w).trans (List.isPrefixOf_iff_prefix.mp hpre)
        simp [List.isPrefixOf_iff_prefix.mpr hin] at hv
      · apply Bool.eq_false_iff.mpr
        intro hpre
        exact hoccurs (List.isPrefixOf_iff_prefix.mp hpre)

/-- A text without the first character of a word avoids the word. -/
theorem avoids_of_not_mem {a : α} {word text : List α} (h : a ∉ text) :
    avoids (a :: word) text = true := by
  induction text with
  | nil => rfl
  | cons b text ih =>
      simp only [List.mem_cons, not_or] at h
      have hab : (a == b) = false := beq_false_of_ne h.1
      have hba : (b == a) = false := beq_false_of_ne (Ne.symm h.1)
      simp [avoids_cons, List.isPrefixOf, hab, hba, ih h.2]

/-- Behind a text that avoids it, a word is found at once. -/
theorem find_append {word skip : List α} (h : avoids word skip = true) (rest : List α) :
    find word (skip ++ (word ++ rest)) = some skip.length := by
  induction skip with
  | nil =>
      have hhere : word.isPrefixOf (word ++ rest) = true :=
        List.isPrefixOf_iff_prefix.mpr (List.prefix_append word rest)
      cases hrest : word ++ rest with
      | nil => simp_all [find]
      | cons a text => simp_all [find]
  | cons a skip ih =>
      have hoccurs := not_prefix_of_avoids h List.suffix_rfl (by simp) (word ++ rest)
      simp only [avoids_cons, Bool.and_eq_true] at h
      simp only [List.cons_append] at hoccurs ⊢
      simp [find, List.isPrefixOf_iff_prefix, hoccurs, ih h.2]

/-- What holds of nothing and of texts in a row holds of items with a separator
between them. -/
theorem intercalate_of_append {α : Type} {P : List α → Prop} (hnil : P [])
    (happend : ∀ {v w}, P v → P w → P (v ++ w)) {sep : List α} (hsep : P sep)
    {items : List (List α)} (hitems : ∀ w ∈ items, P w) : P (sep.intercalate items) := by
  induction items with
  | nil => exact hnil
  | cons w items ih =>
      have hw := hitems w List.mem_cons_self
      have hmore := ih fun v hv => hitems v (List.mem_cons_of_mem w hv)
      cases items with
      | nil => simpa using hw
      | cons v items =>
          rw [List.intercalate_cons_cons]
          exact happend (happend hw hsep) hmore

/-! ## Nesting -/

/-- What may stand between double quotes: every backslash takes the next
character with it, and there is no other quote. -/
inductive Quoted : List Char → Prop
  | nil : Quoted []
  | char {c : Char} {w : List Char} :
      c ≠ '"' → c ≠ '\\' → Quoted w → Quoted (c :: w)
  | escape {c : Char} {w : List Char} :
      c ≠ '\n' → Quoted w → Quoted ('\\' :: c :: w)

/-- Characters that are neither quotes nor backslashes do not matter. -/
theorem quoted_append_iff {v w : List Char} (hv : ∀ c ∈ v, c ≠ '"' ∧ c ≠ '\\') :
    Quoted (v ++ w) ↔ Quoted w := by
  induction v with
  | nil => rfl
  | cons c v ih =>
      obtain ⟨hquote, hslash⟩ := hv c List.mem_cons_self
      have hmore := ih fun d hd => hv d (List.mem_cons_of_mem c hd)
      rw [List.cons_append]
      constructor
      · intro h
        generalize v ++ w = text at h hmore
        cases h with
        | char _ _ h => exact hmore.mp h
        | escape => exact absurd rfl hslash
      · intro h
        exact .char hquote hslash (hmore.mpr h)

/-- The characters that open or close something. -/
def delimiters : List Char := ['"', '[', ']', '{', '}']

/-- A text whose quotes, brackets and braces nest; `commas` tells whether commas
may stand outside all of them. -/
inductive Nested : (commas : Bool) → List Char → Prop
  | nil {commas : Bool} : Nested commas []
  | char {commas : Bool} {c : Char} {w : List Char} :
      c ∉ delimiters → (c = ',' → commas = true) → Nested commas w →
      Nested commas (c :: w)
  | quotes {commas : Bool} {v w : List Char} :
      Quoted v → Nested commas w → Nested commas ('"' :: (v ++ '"' :: w))
  | brackets {commas : Bool} {v w : List Char} :
      Nested true v → Nested commas w → Nested commas ('[' :: (v ++ ']' :: w))
  | braces {commas : Bool} {v w : List Char} :
      Nested true v → Nested commas w → Nested commas ('{' :: (v ++ '}' :: w))

namespace Nested

variable {commas : Bool} {v w : List Char}

theorem append (hv : Nested commas v) (hw : Nested commas w) : Nested commas (v ++ w) := by
  induction hv with
  | nil => exact hw
  | char hc hcomma _ ih => exact .char hc hcomma (ih hw)
  | quotes hquoted _ ih => simpa using quotes hquoted (ih hw)
  | brackets hinner _ _ ih => simpa using brackets hinner (ih hw)
  | braces hinner _ _ ih => simpa using braces hinner (ih hw)

theorem weaken (h : Nested commas w) : Nested true w := by
  induction h with
  | nil => exact .nil
  | char hc _ _ ih => exact .char hc (fun _ => rfl) ih
  | quotes hquoted _ ih => exact .quotes hquoted ih
  | brackets hinner _ _ ih => exact .brackets hinner ih
  | braces hinner _ _ ih => exact .braces hinner ih

/-- A text without delimiters and commas. -/
theorem of_plain (h : ∀ c ∈ w, c ∉ delimiters ∧ c ≠ ',') : Nested commas w := by
  induction w with
  | nil => exact .nil
  | cons c w ih =>
      have hc := h c List.mem_cons_self
      exact .char hc.1 (fun hcomma => absurd hcomma hc.2)
        (ih fun d hd => h d (List.mem_cons_of_mem c hd))

/-- Items set apart by a comma and a space. -/
theorem intercalate {items : List (List Char)} (h : ∀ w ∈ items, Nested true w) :
    Nested true ([',', ' '].intercalate items) := by
  have hcomma : Nested true [',', ' '] :=
    .char (by decide) (fun _ => rfl) (.char (by decide) (fun _ => rfl) .nil)
  exact intercalate_of_append .nil append hcomma h

end Nested

/-! ## Loops over nested texts -/

/-- A loop over a text and the positions of its characters that skips strings
and keeps track of the brackets and braces around it.  In a state that is
`good commas` it takes no notice of characters other than delimiters, nor of
commas if there may be any. -/
structure Scanner (σ β : Type) where
  loop : σ → Nat → List Char → β
  /-- between two quotes -/
  inString : σ → Nat → List Char → β
  /-- between two quotes, behind a backslash -/
  escaped : σ → Nat → List Char → β
  good : Bool → σ → Prop
  bracket : σ → σ
  brace : σ → σ
  loop_quote (s : σ) (idx : Nat) (rest : List Char) :
    loop s idx ('"' :: rest) = inString s (idx + 1) rest
  inString_quote (s : σ) (idx : Nat) (rest : List Char) :
    inString s idx ('"' :: rest) = loop s (idx + 1) rest
  inString_backslash (s : σ) (idx : Nat) (rest : List Char) :
    inString s idx ('\\' :: rest) = escaped s (idx + 1) rest
  inString_char (s : σ) (idx : Nat) (rest : List Char) {c : Char} :
    c ≠ '"' → c ≠ '\\' → inString s idx (c :: rest) = inString s (idx + 1) rest
  escaped_char (s : σ) (idx : Nat) (rest : List Char) (c : Char) :
    escaped s idx (c :: rest) = inString s (idx + 1) rest
  loop_char {commas : Bool} {s : σ} {c : Char} :
    good commas s → c ∉ delimiters → (c = ',' → commas = true) →
      ∀ idx rest, loop s idx (c :: rest) = loop s (idx + 1) rest
  good_bracket {commas : Bool} {s : σ} : good commas s → good true (bracket s)
  loop_bracket {commas : Bool} {s : σ} : good commas s → ∀ idx rest,
    loop s idx ('[' :: rest) = loop (bracket s) (idx + 1) rest ∧
      loop (bracket s) idx (']' :: rest) = loop s (idx + 1) rest
  good_brace {commas : Bool} {s : σ} : good commas s → good true (brace s)
  loop_brace {commas : Bool} {s : σ} : good commas s → ∀ idx rest,
    loop s idx ('{' :: rest) = loop (brace s) (idx + 1) rest ∧
      loop (brace s) idx ('}' :: rest) = loop s (idx + 1) rest

namespace Scanner

variable {σ β : Type} (scanner : Scanner σ β)

/-- A string is skipped up to its closing quote. -/
theorem loop_quoted {v : List Char} (hv : Quoted v) (s : σ) (idx : Nat)
    (rest : List Char) :
    scanner.inString s idx (v ++ '"' :: rest) =
      scanner.loop s (idx + (v.length + 1)) rest := by
  induction hv generalizing idx with
  | nil => exact scanner.inString_quote s idx rest
  | @char c w hquote hslash _ ih =>
      have hstep := ih (idx + 1)
      rw [show idx + 1 + (w.length + 1) = idx + ((c :: w).length + 1) by
        simp only [List.length_cons]; omega] at hstep
      exact (scanner.inString_char s idx _ hquote hslash).trans hstep
  | @escape c w _ _ ih =>
      have hslash := scanner.inString_backslash s idx (c :: (w ++ '"' :: rest))
      have hchar := scanner.escaped_char s (idx + 1) (w ++ '"' :: rest) c
      have hstep := ih (idx + 1 + 1)
      rw [show idx + 1 + 1 + (w.length + 1) = idx + (('\\' :: c :: w).length + 1) by
        simp only [List.length_cons]; omega] at hstep
      exact (hslash.trans hchar).trans hstep

/-- A nested text is passed over, and the state is as before. -/
theorem loop_nested {commas : Bool} {v : List Char} (hv : Nested commas v) {s : σ}
    (hs : scanner.good commas s) (idx : Nat) (rest : List Char) :
    scanner.loop s idx (v ++ rest) = scanner.loop s (idx + v.length) rest := by
  induction hv generalizing s idx rest with
  | nil => rfl
  | @char _ c w hc hcomma _ ih =>
      have hstep := ih hs (idx + 1) rest
      rw [show idx + 1 + w.length = idx + (c :: w).length by
        simp only [List.length_cons]; omega] at hstep
      exact (scanner.loop_char hs hc hcomma idx (w ++ rest)).trans hstep
  | @quotes _ v w hquoted _ ih =>
      have hopen := scanner.loop_quote s idx (v ++ '"' :: (w ++ rest))
      have hstring := scanner.loop_quoted hquoted s (idx + 1) (w ++ rest)
      have hstep := ih hs (idx + 1 + (v.length + 1)) rest
      rw [show idx + 1 + (v.length + 1) + w.length = idx + ('"' :: (v ++ '"' :: w)).length by
        simp only [List.length_cons, List.length_append]; omega] at hstep
      simpa using (hopen.trans hstring).trans hstep
  | @brackets _ v w _ _ ihv ihw =>
      have hopen := (scanner.loop_bracket hs idx (v ++ ']' :: (w ++ rest))).1
      have hinner := ihv (scanner.good_bracket hs) (idx + 1) (']' :: (w ++ rest))
      have hclose := (scanner.loop_bracket hs (idx + 1 + v.length) (w ++ rest)).2
      have hstep := ihw hs (idx + 1 + v.length + 1) rest
      rw [show idx + 1 + v.length + 1 + w.length = idx + ('[' :: (v ++ ']' :: w)).length by
        simp only [List.length_cons, List.length_append]; omega] at hstep
      simpa using ((hopen.trans hinner).trans hclose).trans hstep
  | @braces _ v w _ _ ihv ihw =>
      have hopen := (scanner.loop_brace hs idx (v ++ '}' :: (w ++ rest))).1
      have hinner := ihv (scanner.good_brace hs) (idx + 1) ('}' :: (w ++ rest))
      have hclose := (scanner.loop_brace hs (idx + 1 + v.length) (w ++ rest)).2
      have hstep := ihw hs (idx + 1 + v.length + 1) rest
      rw [show idx + 1 + v.length + 1 + w.length = idx + ('{' :: (v ++ '}' :: w)).length by
        simp only [List.length_cons, List.length_append]; omega] at hstep
      simpa using ((hopen.trans hinner).trans hclose).trans hstep

end Scanner

end B4n.Lib.Text
