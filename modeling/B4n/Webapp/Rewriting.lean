import B4n.Webapp.LogParser
import B4n.Blockchain.Debug

/-!
# The escapes that are rewritten

`_decode_debug_string` replaces every occurrence of a backslash, `u` and digits
of base sixteen in braces by Python's escape of the same number.  Whether the
backslash is escaped itself is not looked at.  The replacement takes a string to
a string, so that there is always a single literal to evaluate.

## Main results

* `matchAt_escape`, `matchAt_eq_none` — where the regular expression matches.
* `pythonLiteral_of_transaction` — what is evaluated is a single literal.
-/

namespace B4n.Webapp

open B4n.Blockchain B4n.Lib B4n.Lib.Text

/-! ## The rewriting -/

/-- At the start of the text stand the characters of an escape. -/
def EscapeAt (text : List Char) : Prop :=
  ∃ digits rest, digits ≠ [] ∧ (∀ c ∈ digits, isHex c = true) ∧
    text = '\\' :: 'u' :: '{' :: (digits ++ '}' :: rest)

/-- Where an escape stands, the regular expression finds its digits. -/
theorem matchAt_escape {digits : List Char} (hne : digits ≠ [])
    (hhex : ∀ c ∈ digits, isHex c = true) (before rest : List Char) :
    ∃ before', UNICODE_ESCAPE_RE.matchAt before (['\\', 'u', '{'] ++ (digits ++ '}' :: rest)) =
      some ⟨before', rest, [(1, digits)]⟩ := by
  have hstop : ∀ c, (['}'] ++ rest).head? = some c → isHex c = false := by
    simp [isHex]
  have hdigits := Regex.Reaches.plus_cls hne hhex hstop (['\\', 'u', '{'].reverse ++ before)
    ([] : List (Nat × List Char))
  exact ⟨_, Regex.Reaches.matchAt_eq
    (.seq (.lit _ _ _ _) (.seq (.group 1 hdigits) (.lit _ _ _ _)))⟩

/-- Elsewhere it finds nothing. -/
theorem matchAt_eq_none {text : List Char} (h : ¬ EscapeAt text) (before : List Char) :
    UNICODE_ESCAPE_RE.matchAt before text = none := by
  apply Regex.run_eq_none
  intro c hc
  cases hc with
  | seq hopen hc =>
      cases hc with
      | seq hgroup hclose =>
          have hopened := hopen.lit
          have hclosed := hclose.lit
          cases hgroup with
          | group hplus =>
              obtain ⟨digits, hne, hdigits, hrest⟩ := hplus.plus_cls
              refine h ⟨digits, c.rest, hne, hdigits, ?_⟩
              simp only [Cursor.record] at hclosed
              rw [hrest, hclosed] at hopened
              simpa using hopened

/-- The text is rewritten to `out`, whatever stands before it. -/
def Rewrites (text out : List Char) : Prop :=
  ∀ before, UNICODE_ESCAPE_RE.sub pythonEscape before text = out

theorem not_escapeAt_of_ne {c : Char} (hc : c ≠ '\\') (text : List Char) :
    ¬ EscapeAt (c :: text) := by
  rintro ⟨digits, rest, -, -, h⟩
  exact hc (List.cons.inj h).1

theorem not_escapeAt_cons_of_ne {c : Char} (hc : c ≠ 'u') (text : List Char) :
    ¬ EscapeAt ('\\' :: c :: text) := by
  rintro ⟨digits, rest, -, -, h⟩
  exact hc (List.cons.inj (List.cons.inj h).2).1

namespace Rewrites

variable {text out : List Char}

theorem nil : Rewrites [] [] := fun before => Regex.sub_nil UNICODE_ESCAPE_RE pythonEscape before

theorem char {c : Char} (hc : ¬ EscapeAt (c :: text)) (h : Rewrites text out) :
    Rewrites (c :: text) (c :: out) := by
  intro before
  rw [Regex.sub_cons pythonEscape (matchAt_eq_none hc before), h]

theorem chars {w : List Char} (hw : ∀ c ∈ w, c ≠ '\\') (h : Rewrites text out) :
    Rewrites (w ++ text) (w ++ out) := by
  induction w with
  | nil => exact h
  | cons c w ih =>
      have hmore := ih fun d hd => hw d (List.mem_cons_of_mem c hd)
      exact char (not_escapeAt_of_ne (hw c List.mem_cons_self) _) hmore

theorem escape {digits : List Char} (hne : digits ≠ [])
    (hhex : ∀ c ∈ digits, isHex c = true) (h : Rewrites text out) :
    Rewrites ('\\' :: 'u' :: '{' :: (digits ++ '}' :: text))
      ('\\' :: 'U' :: (hexPad 8 (ofHex digits) ++ out)) := by
  intro before
  obtain ⟨before', hmatch⟩ := matchAt_escape hne hhex before text
  have hsub := Regex.sub_append (w := '\\' :: 'u' :: '{' :: (digits ++ ['}'])) pythonEscape
    (by simp) (by simpa using hmatch)
  rw [h before'] at hsub
  simpa [pythonEscape, Cursor.group?] using hsub

end Rewrites

/-- A text that starts inside a string and ends with its closing quote, split
behind characters that are no quotes. -/
theorem exists_of_append_eq {w v rest : List Char} (hv : '"' ∉ v)
    (h : w ++ ['"'] = v ++ rest) : ∃ more, w = v ++ more ∧ rest = more ++ ['"'] := by
  rcases List.append_eq_append_iff.mp h with ⟨t, hvw, hrest⟩ | ⟨more, hw, hrest⟩
  · cases t with
    | nil => exact ⟨[], by simpa using hvw.symm, by simpa using hrest.symm⟩
    | cons c t =>
        have hc : c = '"' := (List.cons.inj hrest).1.symm
        exact absurd (by simp [hvw, hc]) hv
  · exact ⟨more, hw, hrest⟩

/-- Behind its backslash an escape has neither quotes nor backslashes. -/
theorem plain_of_mem_escape {digits : List Char} {c : Char}
    (hhex : ∀ c ∈ digits, isHex c = true) (hc : c ∈ 'u' :: '{' :: (digits ++ ['}'])) :
    c ≠ '"' ∧ c ≠ '\\' := by
  simp only [List.mem_cons, List.mem_append, List.not_mem_nil, or_false] at hc
  rcases hc with rfl | rfl | hc | rfl
  · decide
  · decide
  · obtain ⟨hquote, -, hslash, -⟩ := isHex_plain (hhex c hc)
    exact ⟨hquote, hslash⟩
  · decide

/-- The escape at the start of a string is followed by the rest of the
string. -/
theorem EscapeAt.split {w : List Char} (h : EscapeAt ('\\' :: (w ++ ['"']))) :
    ∃ digits more, digits ≠ [] ∧ (∀ c ∈ digits, isHex c = true) ∧
      w = 'u' :: '{' :: (digits ++ '}' :: more) ∧ (Quoted w → Quoted more) := by
  obtain ⟨digits, rest, hne, hhex, htext⟩ := h
  have hplain := fun c => plain_of_mem_escape (c := c) hhex
  have hinside : w ++ ['"'] = ('u' :: '{' :: (digits ++ ['}'])) ++ rest := by
    simpa using htext
  obtain ⟨more, hw, -⟩ := exists_of_append_eq (fun hmem => (hplain _ hmem).1 rfl) hinside
  refine ⟨digits, more, hne, hhex, by simpa using hw, fun hquoted => ?_⟩
  rw [hw] at hquoted
  exact (quoted_append_iff hplain).mp hquoted

/-- The rewriting turns one string into one string, so that Python always gets a
single literal to evaluate. -/
theorem exists_quoted_rewrites {v : List Char} (hv : Quoted v) :
    ∃ out, Quoted out ∧ Rewrites (v ++ ['"']) (out ++ ['"']) := by
  have hpad : ∀ {digits out : List Char}, Quoted out →
      Quoted (hexPad 8 (ofHex digits) ++ out) := fun hout =>
    (quoted_hex_append fun c => isHex_of_mem_hexPad).mpr hout
  induction hn : v.length using Nat.strongRecOn generalizing v with
  | ind n ih =>
      cases hv with
      | nil => exact ⟨[], .nil, .char (not_escapeAt_of_ne (by decide) _) .nil⟩
      | @char c w hquote hslash hw =>
          obtain ⟨out, hout, hrewrites⟩ := ih w.length (by simp at hn; omega) hw rfl
          exact ⟨c :: out, .char hquote hslash hout,
            .char (not_escapeAt_of_ne hslash _) hrewrites⟩
      | @escape c w hline hw =>
          simp only [List.length_cons] at hn
          by_cases hfirst : EscapeAt ('\\' :: c :: (w ++ ['"']))
          · -- an escape of the printed text
            obtain ⟨digits, more, hne, hhex, hcw, hquoted⟩ := EscapeAt.split (w := c :: w) hfirst
            have hlen := congrArg List.length hcw
            simp only [List.length_cons, List.length_append] at hlen
            have hc : c = 'u' := (List.cons.inj hcw).1
            have hmore : Quoted more := hquoted (.char (by simp [hc]) (by simp [hc]) hw)
            obtain ⟨out, hout, hrewrites⟩ := ih more.length (by omega) hmore rfl
            refine ⟨'\\' :: 'U' :: (hexPad 8 (ofHex digits) ++ out),
              .escape (by decide) (hpad hout), ?_⟩
            rw [hcw]
            simpa using Rewrites.escape hne hhex hrewrites
          · by_cases hsecond : EscapeAt (c :: (w ++ ['"']))
            · -- the characters of an escape behind an escaped backslash
              have hc : c = '\\' := by
                by_contra hc
                exact not_escapeAt_of_ne hc _ hsecond
              rw [hc] at hsecond hfirst ⊢
              obtain ⟨digits, more, hne, hhex, hwu, hquoted⟩ := EscapeAt.split hsecond
              have hlen := congrArg List.length hwu
              simp only [List.length_cons, List.length_append] at hlen
              obtain ⟨out, hout, hrewrites⟩ := ih more.length (by omega) (hquoted hw) rfl
              refine ⟨'\\' :: '\\' :: 'U' :: (hexPad 8 (ofHex digits) ++ out),
                .escape (by decide) (.char (by decide) (by decide) (hpad hout)), ?_⟩
              have hescape := Rewrites.escape hne hhex hrewrites
              rw [hwu] at hfirst ⊢
              simpa using Rewrites.char (by simpa using hfirst) hescape
            · obtain ⟨out, hout, hrewrites⟩ := ih w.length (by omega) hw rfl
              exact ⟨'\\' :: c :: out, .escape hline hout, .char hfirst (.char hsecond hrewrites)⟩

/-! ## Tokens -/

/-- The items of a token of the regular expression make up a string. -/
theorem quoted_of_tokenItems {ν : Type} {c c' : Cursor Char ν}
    (h : Regex.Matches (.star tokenItem) c c') :
    ∃ v, Quoted v ∧ c.rest = v ++ c'.rest := by
  generalize hr : Regex.star tokenItem = r at h
  induction h with
  | stop => exact ⟨[], .nil, rfl⟩
  | more hitem _ _ ih =>
      cases hr
      obtain ⟨v, hv, hrest⟩ := ih rfl
      cases hitem with
      | altLeft hescape =>
          cases hescape with
          | seq hslash hany =>
              cases hslash with
              | @cls _ _ _ _ slash hslash =>
                  cases hany with
                  | @cls _ _ _ _ any hany =>
                      have hline : any ≠ '\n' := by simpa using hany
                      refine ⟨'\\' :: any :: v, .escape hline hv, ?_⟩
                      simpa using ⟨beq_iff_eq.mp hslash, hrest⟩
      | altRight hother =>
          cases hother with
          | @cls _ _ _ _ other hother =>
              simp only [Bool.and_eq_true, bne_iff_ne] at hother
              exact ⟨other :: v, .char hother.1 hother.2 hv, by simpa using hrest⟩
  | _ => cases hr

theorem quoted_of_quotedToken {ν : Type} {c c' : Cursor Char ν}
    (h : Regex.Matches quotedToken c c') :
    ∃ v, Quoted v ∧ c.between c' = '"' :: (v ++ ['"']) := by
  cases h with
  | seq hopen h =>
      cases hopen with
      | @cls _ _ _ _ a ha =>
          cases h with
          | seq hitems hclose =>
              obtain ⟨v, hv, hrest⟩ := quoted_of_tokenItems hitems
              cases hclose with
              | @cls _ _ rest _ b hb =>
                  refine ⟨v, hv, ?_⟩
                  simp only [beq_iff_eq] at ha hb
                  simp only at hrest
                  simp only [Cursor.between, hrest, ha, hb, List.length_cons,
                    List.length_append]
                  rw [show v.length + (rest.length + 1) + 1 - rest.length = v.length + 1 + 1 by
                    omega]
                  simp [List.take_length_add_append]

section Sources

variable [CharacterTable]

/-- Whatever transaction the regular expression finds, its text becomes a single
literal between double quotes; that is all that `literalEval` is given. -/
theorem pythonLiteral_of_transaction {item : List Char} {found : Cursor Char String}
    (h : TRANSACTION_RE.matchAt [] item = some found) :
    ∃ out, Quoted out ∧
      pythonLiteral ((found.group? "text").getD []) = '"' :: (out ++ ['"']) := by
  obtain ⟨c, hmatches, hfound⟩ := Regex.run_sound h
  cases hfound
  cases hmatches with
  | seq _ h => cases h with
  | seq _ h => cases h with
  | seq _ h => cases h with
  | seq _ h => cases h with
  | seq _ h => cases h with
  | seq _ h => cases h with
  | seq _ h => cases h with
  | seq _ h => cases h with
  | seq htext h => cases h with
  | seq hclose hend =>
      have hgroups := hclose.lit_groups
      cases hend
      cases htext with
      | group htoken =>
          obtain ⟨v, hv, hcaught⟩ := quoted_of_quotedToken htoken
          obtain ⟨out, hout, hrewrites⟩ := exists_quoted_rewrites hv
          refine ⟨out, hout, ?_⟩
          simp only [Cursor.group?, hgroups, Cursor.record, List.lookup_cons_self, hcaught]
          exact Rewrites.char (not_escapeAt_of_ne (by decide) _) hrewrites []

end Sources

end B4n.Webapp
