import B4n.Webapp.Rewriting

/-!
# Decoding a printed text

`_decode_debug_string` gets a text as `{:?}` prints it, rewrites every escape
`\u{..}` for Python and evaluates the result as a Python literal.  The rewriting
does not look at what stands before an escape, and Python reads up to three
octal digits after a backslash where Rust writes `\0`.  So a text comes back
changed in two cases, and only in these: it contains the characters of an
escape itself, or a NUL with an octal digit behind it.

## Main results

* `decodeDebugString_debugStr` — the two passes together give `ReadBack`.
* `decodeDebugString_eq_iff` — which texts come back unchanged.
-/

namespace B4n.Webapp

open B4n.Blockchain B4n.Lib B4n.Lib.Text

/-! ## The evaluation -/

section Evaluation

variable [CharacterTable]

/-- The rest of a literal is read as `codes`. -/
def Evaluates (text : List Char) (codes : List Nat) : Prop :=
  ∀ fuel, text.length ≤ fuel → readBody fuel text = some codes

namespace Evaluates

variable {text : List Char} {codes : List Nat}

theorem close : Evaluates ['"'] [] := by
  intro fuel hfuel
  cases fuel with
  | zero => simp at hfuel
  | succ fuel => rfl

theorem char {c : Char} (hquote : c ≠ '"') (hline : c ≠ '\n') (hslash : c ≠ '\\')
    (h : Evaluates text codes) : Evaluates (c :: text) (c.toNat :: codes) := by
  intro fuel hfuel
  simp only [List.length_cons] at hfuel
  cases fuel with
  | zero => omega
  | succ fuel => simp [readBody, hquote, hline, hslash, h fuel (by omega)]

theorem chars {w : List Char} (hw : ∀ c ∈ w, c ≠ '"' ∧ c ≠ '\n' ∧ c ≠ '\\')
    (h : Evaluates text codes) : Evaluates (w ++ text) (w.map Char.toNat ++ codes) := by
  induction w with
  | nil => exact h
  | cons c w ih =>
      obtain ⟨hquote, hline, hslash⟩ := hw c List.mem_cons_self
      exact char hquote hline hslash (ih fun d hd => hw d (List.mem_cons_of_mem c hd))

theorem escape {rest : List Char} {more : List Nat}
    (hescape : readEscape text = some (codes, rest)) (hlen : rest.length ≤ text.length)
    (h : Evaluates rest more) : Evaluates ('\\' :: text) (codes ++ more) := by
  intro fuel hfuel
  simp only [List.length_cons] at hfuel
  cases fuel with
  | zero => omega
  | succ fuel => simp [readBody, hescape, h fuel (by omega)]

end Evaluates

/-- Eight digits of base sixteen. -/
theorem readEscape_hexPad {n : Nat} (hn : n ≤ 0x10ffff) (rest : List Char) :
    readEscape ('U' :: (hexPad 8 n ++ rest)) = some ([n], rest) := by
  have hlen : (hexPad 8 n).length = 8 :=
    length_hexPad (by decide) (Nat.lt_of_le_of_lt hn (by decide))
  have htake : (hexPad 8 n ++ rest).take 8 = hexPad 8 n := List.take_left' hlen
  have hdrop : (hexPad 8 n ++ rest).drop 8 = rest := List.drop_left' hlen
  have hall : (hexPad 8 n).all isHex = true :=
    List.all_eq_true.mpr fun c hc => isHex_of_mem_hexPad hc
  have hsimple : simpleEscape 'U' = none := rfl
  simp [readEscape, hsimple, readHex, htake, hdrop, hlen, hall, ofHex_hexPad, hn]

/-- A zero and the octal digits behind it, three in all at most. -/
theorem readEscape_octal {digits rest : List Char} (hdigits : ∀ c ∈ digits, isOctal c = true)
    (hlen : digits.length ≤ 2)
    (hrest : digits.length = 2 ∨ ∀ c, rest.head? = some c → isOctal c = false) :
    readEscape ('0' :: (digits ++ rest)) = some ([ofOctal ('0' :: digits)], rest) := by
  have htake : ('0' :: (digits ++ rest).takeWhile isOctal).take 3 = '0' :: digits := by
    rw [List.takeWhile_append_of_pos hdigits, List.take_succ_cons]
    cases hrest with
    | inl htwo => rw [List.take_left' htwo]
    | inr hstop =>
        have hnil : rest.takeWhile isOctal = [] := by
          cases rest with
          | nil => rfl
          | cons c rest => simp [hstop c rfl]
        rw [hnil, List.append_nil, List.take_of_length_le hlen]
  have hzero : simpleEscape '0' = none := rfl
  have hoctal : isOctal '0' = true := rfl
  simp [readEscape, hzero, hoctal, htake]

end Evaluation

/-! ## Both passes -/

/-- What the parser makes of a text: the characters of an escape are replaced,
octal digits behind a NUL disappear in it, and everything else is kept. -/
inductive ReadBack : List Char → List Nat → Prop
  | nil : ReadBack [] []
  | escape {digits rest : List Char} {codes : List Nat} :
      digits ≠ [] → (∀ c ∈ digits, isHex c = true) → ReadBack rest codes →
      ReadBack ('\\' :: 'u' :: '{' :: (digits ++ '}' :: rest))
        (('\\' :: 'U' :: hexPad 8 (ofHex digits)).map Char.toNat ++ codes)
  | nul {digits rest : List Char} {codes : List Nat} :
      (∀ c ∈ digits, isOctal c = true) → digits.length ≤ 2 →
      (digits.length = 2 ∨ ∀ c, rest.head? = some c → isOctal c = false) →
      ReadBack rest codes →
      ReadBack ('\x00' :: (digits ++ rest)) (ofOctal ('0' :: digits) :: codes)
  | char {c : Char} {rest : List Char} {codes : List Nat} :
      c ≠ '\x00' → ¬ EscapeAt (c :: rest) → ReadBack rest codes →
      ReadBack (c :: rest) (c.toNat :: codes)

/-- The octal digits at the start of a text, two at most. -/
theorem exists_octal_split (text : List Char) :
    ∃ digits rest, text = digits ++ rest ∧ (∀ c ∈ digits, isOctal c = true) ∧
      digits.length ≤ 2 ∧
      (digits.length = 2 ∨ ∀ c, rest.head? = some c → isOctal c = false) := by
  have hoctal : ∀ c ∈ text.takeWhile isOctal, isOctal c = true :=
    fun c => List.mem_takeWhile_imp
  by_cases hlen : (text.takeWhile isOctal).length ≤ 2
  · refine ⟨text.takeWhile isOctal, text.dropWhile isOctal, ?_, hoctal, hlen, .inr ?_⟩
    · exact List.takeWhile_append_dropWhile.symm
    · intro c hc
      have hnot := List.head?_dropWhile_not isOctal text
      rw [hc] at hnot
      simpa using hnot
  · refine ⟨(text.takeWhile isOctal).take 2,
      (text.takeWhile isOctal).drop 2 ++ text.dropWhile isOctal, ?_, ?_, ?_, .inl ?_⟩
    · rw [← List.append_assoc, List.take_append_drop, List.takeWhile_append_dropWhile]
    · exact fun c hc => hoctal c (List.mem_of_mem_take hc)
    · simp
    · simp
      omega

/-- Every text is read back as something. -/
theorem exists_readBack (text : List Char) : ∃ codes, ReadBack text codes := by
  induction hn : text.length using Nat.strongRecOn generalizing text with
  | ind n ih =>
      cases text with
      | nil => exact ⟨[], .nil⟩
      | cons c rest =>
          simp only [List.length_cons] at hn
          by_cases hescape : EscapeAt (c :: rest)
          · obtain ⟨digits, more, hne, hhex, htext⟩ := hescape
            have hlen := congrArg List.length htext
            simp at hlen
            obtain ⟨codes, hcodes⟩ := ih more.length (by omega) more rfl
            rw [htext]
            exact ⟨_, .escape hne hhex hcodes⟩
          · by_cases hnul : c = '\x00'
            · obtain ⟨digits, more, hrest, hdigits, hlen, hstop⟩ := exists_octal_split rest
              have hshort := congrArg List.length hrest
              simp only [List.length_append] at hshort
              obtain ⟨codes, hcodes⟩ := ih more.length (by omega) more rfl
              rw [hnul, hrest]
              exact ⟨_, .nul hdigits hlen hstop hcodes⟩
            · obtain ⟨codes, hcodes⟩ := ih rest.length (by omega) rest rfl
              exact ⟨_, .char hnul hescape hcodes⟩

section Passes

variable [PrintTable] [CharacterTable]

/-- The ways in which a character is printed. -/
inductive Printed (c : Char) : List Char → Prop
  | plain : c ≠ '"' → c ≠ '\n' → c ≠ '\\' → c ≠ '\x00' → c ≠ '\r' → Printed c [c]
  | nul : c = '\x00' → Printed c ['\\', '0']
  | backslash : c = '\\' → Printed c ['\\', '\\']
  | simple (e : Char) : e ≠ 'u' → e ≠ '\\' → e ≠ '\x00' → e ≠ '\r' →
      simpleEscape e = some [c.toNat] → Printed c ['\\', e]
  | unicode : Printed c ('\\' :: 'u' :: '{' :: (Nat.toDigits 16 c.toNat ++ ['}']))

omit [CharacterTable] in
theorem printed_escapeDebug (c : Char) : Printed c (escapeDebug c) := by
  unfold escapeDebug
  split
  · exact .nul rfl
  · exact .simple 't' (by decide) (by decide) (by decide) (by decide) rfl
  · exact .simple 'r' (by decide) (by decide) (by decide) (by decide) rfl
  · exact .simple 'n' (by decide) (by decide) (by decide) (by decide) rfl
  · exact .backslash rfl
  · exact .simple '"' (by decide) (by decide) (by decide) (by decide) rfl
  · next hnul _ hreturn hline hslash hquote =>
    split
    · exact .plain hquote hline hslash hnul hreturn
    · exact .unicode

omit [CharacterTable] in
/-- What is printed without quotes and backslashes stands in the text. -/
theorem prefix_of_printed {text w rest : List Char} (hw : ∀ c ∈ w, c ≠ '"' ∧ c ≠ '\\')
    (h : text.flatMap escapeDebug ++ ['"'] = w ++ rest) : ∃ more, text = w ++ more := by
  induction w generalizing text with
  | nil => exact ⟨text, rfl⟩
  | cons c w ih =>
      obtain ⟨hquote, hslash⟩ := hw c List.mem_cons_self
      cases text with
      | nil =>
          simp at h
          exact absurd h.1.symm hquote
      | cons d text =>
          rw [List.flatMap_cons] at h
          generalize hv : escapeDebug d = v at h
          cases hv ▸ printed_escapeDebug d with
          | plain =>
              simp only [List.cons_append, List.nil_append, List.cons.injEq] at h
              obtain ⟨more, hmore⟩ := ih (fun e he => hw e (List.mem_cons_of_mem c he)) h.2
              exact ⟨more, by rw [h.1, hmore]; rfl⟩
          | _ =>
              simp only [List.cons_append, List.cons.injEq] at h
              exact absurd h.1.symm hslash

omit [CharacterTable] in
/-- Behind a backslash the text prints an escape only where it contains one. -/
theorem escapeAt_of_printed {text : List Char}
    (h : EscapeAt ('\\' :: (text.flatMap escapeDebug ++ ['"']))) : EscapeAt ('\\' :: text) := by
  obtain ⟨digits, rest, hne, hhex, htext⟩ := h
  have hprinted : text.flatMap escapeDebug ++ ['"'] =
      ('u' :: '{' :: (digits ++ ['}'])) ++ rest := by
    simpa using htext
  obtain ⟨more, hmore⟩ := prefix_of_printed (fun c => plain_of_mem_escape hhex) hprinted
  exact ⟨digits, more, hne, hhex, by simp [hmore]⟩

omit [PrintTable] [CharacterTable] in
theorem clean_of_isHex {c : Char} (hc : isHex c = true) : c ≠ '\x00' ∧ c ≠ '\r' := by
  obtain ⟨-, -, -, hnul, hreturn⟩ := isHex_plain hc
  exact ⟨hnul, hreturn⟩

/-- The text is rewritten to `out` and evaluated to `codes`. -/
structure PassesAs (text out : List Char) (codes : List Nat) : Prop where
  rewrites : Rewrites (text.flatMap escapeDebug ++ ['"']) out
  evaluates : Evaluates out codes
  clean : ∀ c ∈ out, c ≠ '\x00' ∧ c ≠ '\r'
  octal : ∀ c, out.head? = some c → isOctal c = true → text.head? = some c

namespace PassesAs

variable {text out : List Char} {codes : List Nat}

theorem nil : PassesAs [] ['"'] [] where
  rewrites := Rewrites.char (not_escapeAt_of_ne (by decide) _) .nil
  evaluates := .close
  clean := by simp
  octal := by simp [isOctal]

/-- An escape of one character, which is no backslash. -/
theorem simple {c e : Char} (hdebug : escapeDebug c = ['\\', e]) (hu : e ≠ 'u')
    (hslash : e ≠ '\\') (hnul : e ≠ '\x00') (hreturn : e ≠ '\r')
    (hescape : simpleEscape e = some [c.toNat]) (h : PassesAs text out codes) :
    PassesAs (c :: text) ('\\' :: e :: out) (c.toNat :: codes) where
  rewrites := by
    simp only [List.flatMap_cons, hdebug, List.cons_append, List.nil_append]
    exact .char (not_escapeAt_cons_of_ne hu _)
      (.char (not_escapeAt_of_ne hslash _) h.rewrites)
  evaluates := by
    have hread : readEscape (e :: out) = some ([c.toNat], out) := by
      simp [readEscape, hescape]
    exact .escape hread (by simp) h.evaluates
  clean := by
    simp only [List.forall_mem_cons]
    exact ⟨by decide, ⟨hnul, hreturn⟩, h.clean⟩
  octal := by simp [isOctal]

/-- A backslash, unless an escape begins with it. -/
theorem backslash (hescape : ¬ EscapeAt ('\\' :: text)) (h : PassesAs text out codes) :
    PassesAs ('\\' :: text) ('\\' :: '\\' :: out) ('\\'.toNat :: codes) where
  rewrites :=
    .char (not_escapeAt_cons_of_ne (by decide) _)
      (.char (fun hprinted => hescape (escapeAt_of_printed hprinted)) h.rewrites)
  evaluates := by
    have hread : readEscape ('\\' :: out) = some (['\\'.toNat], out) := rfl
    exact .escape hread (by simp) h.evaluates
  clean := by
    simp only [List.forall_mem_cons]
    exact ⟨by decide, by decide, h.clean⟩
  octal := by simp [isOctal]

/-- A character that is printed as itself. -/
theorem plain {c : Char} (hdebug : escapeDebug c = [c]) (hquote : c ≠ '"') (hline : c ≠ '\n')
    (hslash : c ≠ '\\') (hnul : c ≠ '\x00') (hreturn : c ≠ '\r')
    (h : PassesAs text out codes) : PassesAs (c :: text) (c :: out) (c.toNat :: codes) where
  rewrites := by
    simp only [List.flatMap_cons, hdebug, List.cons_append, List.nil_append]
    exact .char (not_escapeAt_of_ne hslash _) h.rewrites
  evaluates := .char hquote hline hslash h.evaluates
  clean := by
    simp only [List.forall_mem_cons]
    exact ⟨⟨hnul, hreturn⟩, h.clean⟩
  octal := by simp

/-- A character that is printed by its number. -/
theorem unicode {c : Char}
    (hdebug : escapeDebug c = '\\' :: 'u' :: '{' :: (Nat.toDigits 16 c.toNat ++ ['}']))
    (h : PassesAs text out codes) :
    PassesAs (c :: text) ('\\' :: 'U' :: (hexPad 8 c.toNat ++ out)) (c.toNat :: codes) where
  rewrites := by
    have hne : Nat.toDigits 16 c.toNat ≠ [] := List.ne_nil_of_length_pos Nat.length_toDigits_pos
    have hrewrites := Rewrites.escape hne (fun d => isHex_of_mem_toDigits) h.rewrites
    rw [ofHex_toDigits] at hrewrites
    simpa [hdebug] using hrewrites
  evaluates := by
    have hvalid : c.toNat ≤ 0x10ffff := by
      have hvalid := c.valid
      simp only [UInt32.isValidChar, Nat.isValidChar] at hvalid
      show c.val.toNat ≤ 0x10ffff
      omega
    exact .escape (readEscape_hexPad hvalid out) (by simp; omega) h.evaluates
  clean := by
    simp only [List.forall_mem_cons, List.forall_mem_append]
    exact ⟨by decide, by decide, fun d hd => clean_of_isHex (isHex_of_mem_hexPad hd), h.clean⟩
  octal := by simp [isOctal]

/-- The characters of an escape, of which the backslash is printed twice. -/
theorem escape {digits : List Char} (hne : digits ≠ [])
    (hhex : ∀ c ∈ digits, isHex c = true) (h : PassesAs text out codes) :
    PassesAs ('\\' :: 'u' :: '{' :: (digits ++ '}' :: text))
      ('\\' :: '\\' :: 'U' :: (hexPad 8 (ofHex digits) ++ out))
      (('\\' :: 'U' :: hexPad 8 (ofHex digits)).map Char.toNat ++ codes) where
  rewrites := by
    have hprinted : ('\\' :: 'u' :: '{' :: (digits ++ '}' :: text)).flatMap escapeDebug =
        '\\' :: '\\' :: 'u' :: '{' :: (digits ++ '}' :: text.flatMap escapeDebug) := by
      have hplain : ∀ c, c = 'u' ∨ c = '{' ∨ c = '}' → escapeDebug c = [c] := by
        rintro c (rfl | rfl | rfl) <;>
          exact escapeDebug_plain (by decide) (by decide) (by decide) (by decide)
      simp [flatMap_escapeDebug_of_hex hhex, hplain]
      rfl
    rw [hprinted]
    have hrewrites := Rewrites.escape hne hhex h.rewrites
    simpa using Rewrites.char (not_escapeAt_cons_of_ne (by decide) _) hrewrites
  evaluates := by
    have hplain : ∀ c ∈ 'U' :: hexPad 8 (ofHex digits), c ≠ '"' ∧ c ≠ '\n' ∧ c ≠ '\\' := by
      simp only [List.forall_mem_cons]
      refine ⟨by decide, fun c hc => ?_⟩
      obtain ⟨hquote, hline, hslash, -⟩ := isHex_plain (isHex_of_mem_hexPad hc)
      exact ⟨hquote, hline, hslash⟩
    have hread : readEscape ('\\' :: (('U' :: hexPad 8 (ofHex digits)) ++ out)) =
        some (['\\'.toNat], ('U' :: hexPad 8 (ofHex digits)) ++ out) := rfl
    simpa using Evaluates.escape hread (by simp) (.chars hplain h.evaluates)
  clean := by
    simp only [List.forall_mem_cons, List.forall_mem_append]
    exact ⟨by decide, by decide, by decide,
      fun d hd => clean_of_isHex (isHex_of_mem_hexPad hd), h.clean⟩
  octal := by simp [isOctal]

/-- A NUL with the octal digits behind it. -/
theorem nul {digits : List Char} (hdigits : ∀ c ∈ digits, isOctal c = true)
    (hlen : digits.length ≤ 2)
    (hstop : digits.length = 2 ∨ ∀ c, text.head? = some c → isOctal c = false)
    (h : PassesAs text out codes) :
    PassesAs ('\x00' :: (digits ++ text)) ('\\' :: '0' :: (digits ++ out))
      (ofOctal ('0' :: digits) :: codes) where
  rewrites := by
    have hhex : ∀ c ∈ digits, isHex c = true := fun c hc => isHex_of_isOctal (hdigits c hc)
    have hrewrites := Rewrites.chars (fun c hc => (isHex_plain (hhex c hc)).2.2.1) h.rewrites
    have hzero := Rewrites.char (not_escapeAt_of_ne (c := '0') (by decide) _) hrewrites
    have hall := Rewrites.char (not_escapeAt_cons_of_ne (by decide) _) hzero
    simpa [flatMap_escapeDebug_of_hex hhex, escapeDebug] using hall
  evaluates := by
    have hread : readEscape ('0' :: (digits ++ out)) = some ([ofOctal ('0' :: digits)], out) := by
      apply readEscape_octal hdigits hlen
      rcases hstop with htwo | hstop
      · exact .inl htwo
      · refine .inr fun c hc => ?_
        by_contra hoctal
        have htext := h.octal c hc (by simpa using hoctal)
        simp [hstop c htext] at hoctal
    exact .escape hread (by simp; omega) h.evaluates
  clean := by
    simp only [List.forall_mem_cons, List.forall_mem_append]
    exact ⟨by decide, by decide,
      fun d hd => clean_of_isHex (isHex_of_isOctal (hdigits d hd)), h.clean⟩
  octal := by simp [isOctal]

end PassesAs

/-- Every text passes, as what it is read back as. -/
theorem passesAs_of_readBack {text : List Char} {codes : List Nat}
    (h : ReadBack text codes) : ∃ out, PassesAs text out codes := by
  induction h with
  | nil => exact ⟨_, .nil⟩
  | escape hne hhex _ ih =>
      obtain ⟨out, hout⟩ := ih
      exact ⟨_, .escape hne hhex hout⟩
  | nul hdigits hlen hstop _ ih =>
      obtain ⟨out, hout⟩ := ih
      exact ⟨_, .nul hdigits hlen hstop hout⟩
  | @char c rest codes hnul hescape _ ih =>
      obtain ⟨out, hout⟩ := ih
      generalize hv : escapeDebug c = v
      cases hv ▸ printed_escapeDebug c with
      | plain hquote hline hslash _ hreturn =>
          exact ⟨_, .plain hv hquote hline hslash hnul hreturn hout⟩
      | nul hc => exact absurd hc hnul
      | backslash hc =>
          cases hc
          exact ⟨_, .backslash hescape hout⟩
      | simple e hu hslash hzero hreturn hsimple =>
          exact ⟨_, .simple hv hu hslash hzero hreturn hsimple hout⟩
      | unicode => exact ⟨_, .unicode hv hout⟩

/-- The two passes together never fail, and give what a text is read back as. -/
theorem decodeDebugString_debugStr {text : String} {codes : List Nat}
    (h : ReadBack text.toList codes) : decodeDebugString (debugStr text) = .ok codes := by
  obtain ⟨out, hout⟩ := passesAs_of_readBack h
  have hliteral : pythonLiteral (debugStr text) = '"' :: out :=
    Rewrites.char (not_escapeAt_of_ne (by decide) _) hout.rewrites []
  have hnul : ('"' :: out).contains '\x00' = false := by
    rw [List.contains_eq_mem, decide_eq_false_iff_not, List.mem_cons, not_or]
    exact ⟨by decide, fun hmem => (hout.clean _ hmem).1 rfl⟩
  have hnewlines : universalNewlines ('"' :: out) = '"' :: out := by
    apply universalNewlines_eq_self
    simp only [List.forall_mem_cons]
    exact ⟨by decide, fun c hc => (hout.clean c hc).2⟩
  have heval : literalEval ('"' :: out) = some codes := by
    simp only [literalEval, hnul, hnewlines]
    exact hout.evaluates out.length (Nat.le_refl _)
  simp [decodeDebugString, hliteral, heval]

end Passes

/-! ## What comes back unchanged -/

/-- At the start of the text stands a NUL with an octal digit behind it. -/
def OctalAt (text : List Char) : Prop :=
  ∃ digit rest, text = '\x00' :: digit :: rest ∧ isOctal digit = true

/-- Somewhere the text contains the characters of an escape. -/
def HasEscape (text : List Char) : Prop := ∃ rest, rest <:+ text ∧ EscapeAt rest

/-- Somewhere an octal digit follows a NUL. -/
def HasOctal (text : List Char) : Prop := ∃ rest, rest <:+ text ∧ OctalAt rest

theorem hasEscape_cons {c : Char} {text : List Char} :
    HasEscape (c :: text) ↔ EscapeAt (c :: text) ∨ HasEscape text := by
  simp [HasEscape, List.suffix_cons_iff, or_and_right, exists_or]

theorem hasOctal_cons {c : Char} {text : List Char} :
    HasOctal (c :: text) ↔ OctalAt (c :: text) ∨ HasOctal text := by
  simp [HasOctal, List.suffix_cons_iff, or_and_right, exists_or]

theorem hasEscape_append {w text : List Char} (hw : ∀ c ∈ w, c ≠ '\\') :
    HasEscape (w ++ text) ↔ HasEscape text := by
  induction w with
  | nil => rfl
  | cons c w ih =>
      have hc := not_escapeAt_of_ne (hw c List.mem_cons_self) (w ++ text)
      have hmore := ih fun d hd => hw d (List.mem_cons_of_mem c hd)
      rw [List.cons_append, hasEscape_cons, hmore]
      exact or_iff_right hc

namespace ReadBack

variable {text : List Char} {codes : List Nat}

/-- Every `u`, which has code 117, that comes back stood in the text; and the
escapes lose theirs. -/
theorem count_u (h : ReadBack text codes) :
    codes.count 117 ≤ text.count 'u' ∧
      (HasEscape text → codes.count 117 < text.count 'u') := by
  induction h with
  | nil => simp [HasEscape, EscapeAt]
  | @escape digits rest codes hne hhex _ ih =>
      have hnone : (('\\' :: 'U' :: hexPad 8 (ofHex digits)).map Char.toNat).count 117 = 0 := by
        rw [List.count_eq_zero]
        intro hmem
        obtain ⟨c, hc, hu⟩ := List.mem_map.mp hmem
        simp only [List.mem_cons] at hc
        rcases hc with rfl | rfl | hc
        · simp at hu
        · simp at hu
        · have hbounds := isHex_bounds (isHex_of_mem_hexPad hc)
          omega
      have hless : codes.count 117 <
          ('\\' :: 'u' :: '{' :: (digits ++ '}' :: rest)).count 'u' := by
        simp
        omega
      rw [List.count_append, hnone, Nat.zero_add]
      exact ⟨Nat.le_of_lt hless, fun _ => hless⟩
  | @nul digits rest codes hdigits hlen _ _ ih =>
      have hcode : ofOctal ('0' :: digits) ≠ 117 := by
        have hlt := ofOctal_lt hdigits hlen
        omega
      have hplain : ∀ c ∈ '\x00' :: digits, c ≠ '\\' := by
        simp only [List.forall_mem_cons]
        exact ⟨by decide, fun c hc => (isHex_plain (isHex_of_isOctal (hdigits c hc))).2.2.1⟩
      have hrest : HasEscape ('\x00' :: (digits ++ rest)) ↔ HasEscape rest :=
        hasEscape_append hplain
      have hcount : rest.count 'u' ≤ ('\x00' :: (digits ++ rest)).count 'u' := by
        simp
      rw [hrest, List.count_cons_of_ne hcode]
      exact ⟨ih.1.trans hcount, fun h => (ih.2 h).trans_le hcount⟩
  | @char c rest codes _ hescape _ ih =>
      have hcode : c.toNat = 117 ↔ c = 'u' :=
        ⟨fun h => Char.toNat_inj.mp h, fun h => by rw [h]; rfl⟩
      rw [hasEscape_cons, or_iff_right hescape, List.count_cons, List.count_cons]
      simp only [beq_iff_eq, hcode]
      exact ⟨by omega, fun h => by have hlt := ih.2 h; omega⟩

/-- Without escapes nothing gets longer, and octal digits get lost. -/
theorem length_le (h : ReadBack text codes) (hescape : ¬ HasEscape text) :
    codes.length ≤ text.length ∧ (HasOctal text → codes.length < text.length) := by
  induction h with
  | nil => simp [HasOctal, OctalAt]
  | escape hne hhex _ _ => exact absurd ⟨_, List.suffix_rfl, _, _, hne, hhex, rfl⟩ hescape
  | @nul digits rest codes _ _ hstop _ ih =>
      have hrest : ¬ HasEscape rest := fun ⟨t, ht, h⟩ =>
        hescape ⟨t, ht.trans (List.suffix_append ('\x00' :: digits) rest), h⟩
      obtain ⟨hle, hlt⟩ := ih hrest
      cases digits with
      | cons d digits =>
          simp only [List.length_cons, List.length_append]
          exact ⟨by omega, fun _ => by omega⟩
      | nil =>
          -- no digit follows this NUL, so one follows a later one
          have hnot : ¬ OctalAt ('\x00' :: rest) := by
            rintro ⟨digit, more, htext, hdigit⟩
            rcases hstop with htwo | hstop
            · simp at htwo
            · rw [(List.cons.inj htext).2] at hstop
              simp [hstop digit rfl] at hdigit
          simp only [List.nil_append, List.length_cons]
          rw [hasOctal_cons, or_iff_right hnot]
          exact ⟨by omega, fun h => by have hless := hlt h; omega⟩
  | @char c rest codes hnul _ _ ih =>
      rw [hasEscape_cons, not_or] at hescape
      obtain ⟨hle, hlt⟩ := ih hescape.2
      have hnot : ¬ OctalAt (c :: rest) := by
        rintro ⟨digit, more, htext, -⟩
        exact hnul (List.cons.inj htext).1
      simp only [List.length_cons]
      rw [hasOctal_cons, or_iff_right hnot]
      exact ⟨by omega, fun h => by have hless := hlt h; omega⟩

/-- Without escapes and octal digits everything comes back. -/
theorem eq_map (h : ReadBack text codes) (hescape : ¬ HasEscape text)
    (hoctal : ¬ HasOctal text) : codes = text.map Char.toNat := by
  induction h with
  | nil => rfl
  | escape hne hhex _ _ => exact absurd ⟨_, List.suffix_rfl, _, _, hne, hhex, rfl⟩ hescape
  | @nul digits rest codes hdigits _ _ _ ih =>
      cases digits with
      | cons d digits =>
          exact absurd ⟨_, List.suffix_rfl, d, _, rfl, hdigits d List.mem_cons_self⟩ hoctal
      | nil =>
          rw [List.nil_append, hasEscape_cons, not_or] at hescape
          rw [List.nil_append, hasOctal_cons, not_or] at hoctal
          rw [ih hescape.2 hoctal.2]
          rfl
  | @char c rest codes _ _ _ ih =>
      rw [hasEscape_cons, not_or] at hescape
      rw [hasOctal_cons, not_or] at hoctal
      rw [ih hescape.2 hoctal.2, List.map_cons]

/-- The texts that are read back as themselves. -/
theorem eq_map_iff (h : ReadBack text codes) :
    codes = text.map Char.toNat ↔ ¬ HasEscape text ∧ ¬ HasOctal text := by
  constructor
  · intro heq
    have hcount : codes.count 117 = text.count 'u' := by
      rw [heq]
      exact List.count_map_of_injective text Char.toNat
        (fun c d hcd => Char.toNat_inj.mp hcd) 'u'
    have hlength : codes.length = text.length := by rw [heq, List.length_map]
    have hescape : ¬ HasEscape text := fun hin => by
      have hless := h.count_u.2 hin
      omega
    refine ⟨hescape, fun hin => ?_⟩
    have hless := (h.length_le hescape).2 hin
    omega
  · intro ⟨hescape, hoctal⟩
    exact h.eq_map hescape hoctal

end ReadBack

section Passes

variable [PrintTable] [CharacterTable]

/-- The log parser undoes the printing of a text exactly when the text contains
neither the characters of an escape nor a NUL with an octal digit behind it. -/
theorem decodeDebugString_eq_iff (text : String) :
    decodeDebugString (debugStr text) = .ok (text.toList.map Char.toNat) ↔
      ¬ HasEscape text.toList ∧ ¬ HasOctal text.toList := by
  obtain ⟨codes, hcodes⟩ := exists_readBack text.toList
  rw [decodeDebugString_debugStr hcodes, Except.ok.injEq]
  exact hcodes.eq_map_iff

end Passes

namespace Sample

/-- Tables for ASCII texts. -/
scoped instance printTable : PrintTable where
  isPlain c := 0x20 ≤ c.toNat && c.toNat ≤ 0x7e
  isPlain_ascii c hlow hhigh := by simp [hlow, hhigh]

scoped instance characterTable : CharacterTable where
  decimal c := if c.isDigit then some (c.toNat - 48) else none
  isWord c := c.isAlphanum || c == '_'
  lookup _ := none
  decimal_ascii _ _ := rfl
  isWord_ascii _ _ := rfl

/-- A text with the characters of an escape, and a NUL before a digit. -/
theorem debugString_changes :
    decodeDebugString (debugStr "\\u\x7b41\x7d") =
        .ok ("\\U00000041".toList.map Char.toNat) ∧
      decodeDebugString (debugStr "\x001") = .ok [1] ∧
      ¬ ∀ text, decodeDebugString (debugStr text) = .ok (text.toList.map Char.toNat) := by
  have hescape : decodeDebugString (debugStr "\\u\x7b41\x7d") =
      .ok ("\\U00000041".toList.map Char.toNat) := by
    decide +kernel
  have hnul : decodeDebugString (debugStr "\x001") = .ok [1] := by
    decide +kernel
  refine ⟨hescape, hnul, fun h => ?_⟩
  have hone := (h "\x001").symm.trans hnul
  simp at hone

end Sample

end B4n.Webapp
