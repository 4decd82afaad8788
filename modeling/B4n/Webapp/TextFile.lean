import B4n.Lib.Utf8
import B4n.Webapp.Python

/-!
# Reading a text file

What `Path.read_text(encoding="utf-8", errors="replace")` makes of the bytes of a
file, and how two readings of one file compare when another program appends to
it in between.  The first may end inside a character, which it shows as U+FFFD,
between the two characters of a line end, or inside a line.

## Main results

* `decode_append` — decoding goes on where it stopped.
* `decode_utf8` — an encoded text is read as it is.
* `readText_positions` — the lines of the first reading that begin with a word
  are the first ones of the second reading that do.
-/

namespace B4n.Webapp

open B4n.Lib

/-! ## Decoding -/

/-- The replacement character of `errors="replace"`. -/
def REPLACEMENT : Char := '\uFFFD'

/-- A character that has begun: how many bytes it still needs, the range that
the next one must be in, and the code so far. -/
structure Pending where
  need : Nat
  low : UInt8
  high : UInt8
  code : Nat

/-- A byte where a character begins: what is decoded at once, or what is
pending. -/
def beginChar (b : UInt8) : List Char × Option Pending :=
  if b < 0x80 then ([Char.ofUInt8 b], none)
  else if b < 0xc2 then ([REPLACEMENT], none)
  else if b < 0xe0 then ([], some ⟨1, 0x80, 0xbf, b.toNat - 0xc0⟩)
  else if b == 0xe0 then ([], some ⟨2, 0xa0, 0xbf, 0⟩)
  else if b == 0xed then ([], some ⟨2, 0x80, 0x9f, 0xd⟩)
  else if b < 0xf0 then ([], some ⟨2, 0x80, 0xbf, b.toNat - 0xe0⟩)
  else if b == 0xf0 then ([], some ⟨3, 0x90, 0xbf, 0⟩)
  else if b == 0xf4 then ([], some ⟨3, 0x80, 0x8f, 4⟩)
  else if b < 0xf4 then ([], some ⟨3, 0x80, 0xbf, b.toNat - 0xf0⟩)
  else ([REPLACEMENT], none)

/-- One byte.  A byte that cannot go on with the pending character replaces what
there is of it and begins another one. -/
def decodeByte (b : UInt8) : Option Pending → List Char × Option Pending
  | none => beginChar b
  | some p =>
      if p.low ≤ b && b ≤ p.high then
        let code := 64 * p.code + (b.toNat - 0x80)
        if p.need == 1 then ([Char.ofNat code], none)
        else ([], some ⟨p.need - 1, 0x80, 0xbf, code⟩)
      else
        let next := beginChar b
        (REPLACEMENT :: next.1, next.2)

/-- What is left of a pending character at the end. -/
def flush : Option Pending → List Char
  | none => []
  | some _ => [REPLACEMENT]

/-- The rest of the bytes, after those of a pending character. -/
def decodeLoop : Option Pending → List UInt8 → List Char
  | st, [] => flush st
  | st, b :: bytes =>
      let next := decodeByte b st
      next.1 ++ decodeLoop next.2 bytes

/-- `bytes.decode("utf-8", errors="replace")` -/
def decode (bytes : List UInt8) : List Char := decodeLoop none bytes

/-- `Path.read_text` of a file with these bytes -/
def readText (bytes : List UInt8) : List Char := universalNewlines (decode bytes)

/-- Decoding goes on where it stopped. -/
theorem decodeLoop_append (st : Option Pending) (bytes : List UInt8) :
    ∃ text st', decodeLoop st bytes = text ++ flush st' ∧
      ∀ more, decodeLoop st (bytes ++ more) = text ++ decodeLoop st' more := by
  induction bytes generalizing st with
  | nil => exact ⟨[], st, rfl, fun more => rfl⟩
  | cons b bytes ih =>
      obtain ⟨text, st', hend, hmore⟩ := ih (decodeByte b st).2
      refine ⟨(decodeByte b st).1 ++ text, st', ?_, fun more => ?_⟩
      · rw [decodeLoop, hend, List.append_assoc]
      · rw [List.cons_append, decodeLoop, hmore, List.append_assoc]

/-- Two readings of a file that grew agree on a text, behind which the first one
shows at most a character that was cut. -/
theorem decode_append (bytes more : List UInt8) :
    ∃ text rest, decode (bytes ++ more) = text ++ rest ∧
      (decode bytes = text ∨ decode bytes = text ++ [REPLACEMENT]) := by
  obtain ⟨text, st, hend, hmore⟩ := decodeLoop_append none bytes
  refine ⟨text, _, hmore more, ?_⟩
  cases st with
  | none =>
      left
      rw [decode, hend, flush, List.append_nil]
  | some p => exact .inr hend

/-! ## Encoded texts -/

/-- Where a character begins, by the number of the byte. -/
theorem beginChar_ofNat (n : Nat) (hn : n < 256) :
    beginChar (.ofNat n) =
      if n < 0x80 then ([Char.ofUInt8 (.ofNat n)], none)
      else if n < 0xc2 then ([REPLACEMENT], none)
      else if n < 0xe0 then ([], some ⟨1, 0x80, 0xbf, n - 0xc0⟩)
      else if n = 0xe0 then ([], some ⟨2, 0xa0, 0xbf, 0⟩)
      else if n = 0xed then ([], some ⟨2, 0x80, 0x9f, 0xd⟩)
      else if n < 0xf0 then ([], some ⟨2, 0x80, 0xbf, n - 0xe0⟩)
      else if n = 0xf0 then ([], some ⟨3, 0x90, 0xbf, 0⟩)
      else if n = 0xf4 then ([], some ⟨3, 0x80, 0x8f, 4⟩)
      else if n < 0xf4 then ([], some ⟨3, 0x80, 0xbf, n - 0xf0⟩)
      else ([REPLACEMENT], none) := by
  have htoNat : (UInt8.ofNat n).toNat = n := UInt8.toNat_ofNat_of_lt' hn
  simp only [beginChar, UInt8.lt_iff_toNat_lt, beq_iff_eq, ← UInt8.toNat_inj, htoNat]
  rfl

/-- A byte that may go on with a pending character. -/
theorem decodeByte_pending {need n code : Nat} {low high : UInt8} (hn : n < 256)
    (hlow : low.toNat ≤ n) (hhigh : n ≤ high.toNat) :
    decodeByte (.ofNat n) (some ⟨need, low, high, code⟩) =
      if need == 1 then ([Char.ofNat (64 * code + (n - 0x80))], none)
      else ([], some ⟨need - 1, 0x80, 0xbf, 64 * code + (n - 0x80)⟩) := by
  have htoNat : (UInt8.ofNat n).toNat = n := UInt8.toNat_ofNat_of_lt' hn
  have hrange : (low ≤ UInt8.ofNat n && UInt8.ofNat n ≤ high) = true := by
    simp only [Bool.and_eq_true, decide_eq_true_eq, UInt8.le_iff_toNat_le, htoNat]
    exact ⟨hlow, hhigh⟩
  simp only [decodeByte, hrange, if_true, htoNat]

/-- The last byte of a character. -/
theorem decodeLoop_last {n code v : Nat} {low high : UInt8} (hn : n < 256)
    (hlow : low.toNat ≤ n) (hhigh : n ≤ high.toNat) (hv : 64 * code + (n - 0x80) = v)
    (rest : List UInt8) :
    decodeLoop (some ⟨1, low, high, code⟩) (.ofNat n :: rest) =
      Char.ofNat v :: decodeLoop none rest := by
  rw [decodeLoop, decodeByte_pending hn hlow hhigh, hv]
  rfl

/-- A byte in the middle of a character. -/
theorem decodeLoop_middle {need n code : Nat} {low high : UInt8} (hn : n < 256)
    (hlow : low.toNat ≤ n) (hhigh : n ≤ high.toNat) (rest : List UInt8) :
    decodeLoop (some ⟨need + 2, low, high, code⟩) (.ofNat n :: rest) =
      decodeLoop (some ⟨need + 1, 0x80, 0xbf, 64 * code + (n - 0x80)⟩) rest := by
  rw [decodeLoop, decodeByte_pending hn hlow hhigh]
  rfl

theorem decodeLoop_begin {b : UInt8} {p : Pending} (hb : beginChar b = ([], some p))
    (rest : List UInt8) : decodeLoop none (b :: rest) = decodeLoop (some p) rest := by
  rw [decodeLoop, decodeByte, hb]
  rfl

/-- The last two bytes of a character. -/
theorem decodeLoop_two {n m code v : Nat} {low high : UInt8} (hn : n < 256)
    (hlow : low.toNat ≤ n) (hhigh : n ≤ high.toNat) (hm : 0x80 ≤ m ∧ m ≤ 0xbf)
    (hv : 64 * (64 * code + (n - 0x80)) + (m - 0x80) = v) (rest : List UInt8) :
    decodeLoop (some ⟨2, low, high, code⟩) (.ofNat n :: .ofNat m :: rest) =
      Char.ofNat v :: decodeLoop none rest := by
  rw [decodeLoop_middle hn hlow hhigh, decodeLoop_last (by omega) hm.1 hm.2 hv]

/-- The last three bytes of a character. -/
theorem decodeLoop_three {n m l code v : Nat} {low high : UInt8} (hn : n < 256)
    (hlow : low.toNat ≤ n) (hhigh : n ≤ high.toNat) (hm : 0x80 ≤ m ∧ m ≤ 0xbf)
    (hl : 0x80 ≤ l ∧ l ≤ 0xbf)
    (hv : 64 * (64 * (64 * code + (n - 0x80)) + (m - 0x80)) + (l - 0x80) = v)
    (rest : List UInt8) :
    decodeLoop (some ⟨3, low, high, code⟩) (.ofNat n :: .ofNat m :: .ofNat l :: rest) =
      Char.ofNat v :: decodeLoop none rest := by
  rw [decodeLoop_middle hn hlow hhigh, decodeLoop_two (by omega) hm.1 hm.2 hl hv]

/-- A character of three bytes.  Behind the first and the last but two of the bytes
that can begin one, the second byte is bounded further. -/
theorem decodeLoop_threeBytes {v : Nat} (hlow : 0x800 ≤ v) (hhigh : v < 0x10000)
    (hvalid : v < 0xd800 ∨ 0xdfff < v) (rest : List UInt8) :
    decodeLoop none (.ofNat (v / 4096 % 0x10 + 0xe0) :: .ofNat (v / 64 % 0x40 + 0x80) ::
      .ofNat (v % 0x40 + 0x80) :: rest) = Char.ofNat v :: decodeLoop none rest := by
  have hbegin := beginChar_ofNat (v / 4096 % 0x10 + 0xe0) (by omega)
  rw [if_neg (by omega), if_neg (by omega), if_neg (by omega)] at hbegin
  by_cases hfirst : v < 0x1000
  · rw [if_pos (by omega)] at hbegin
    rw [decodeLoop_begin hbegin]
    exact decodeLoop_two (by omega) (show 0xa0 ≤ _ by omega) (show _ ≤ 0xbf by omega)
      (by omega) (by omega) rest
  rw [if_neg (by omega)] at hbegin
  by_cases hlast : 0xd000 ≤ v ∧ v < 0xe000
  · rw [if_pos (by omega)] at hbegin
    rw [decodeLoop_begin hbegin]
    exact decodeLoop_two (by omega) (show 0x80 ≤ _ by omega) (show _ ≤ 0x9f by omega)
      (by omega) (by omega) rest
  · rw [if_neg (by omega), if_pos (by omega)] at hbegin
    rw [decodeLoop_begin hbegin]
    exact decodeLoop_two (by omega) (show 0x80 ≤ _ by omega) (show _ ≤ 0xbf by omega)
      (by omega) (by omega) rest

/-- A character of four bytes. -/
theorem decodeLoop_fourBytes {v : Nat} (hlow : 0x10000 ≤ v) (hhigh : v < 0x110000)
    (rest : List UInt8) :
    decodeLoop none (.ofNat (v / 262144 % 0x08 + 0xf0) :: .ofNat (v / 4096 % 0x40 + 0x80) ::
      .ofNat (v / 64 % 0x40 + 0x80) :: .ofNat (v % 0x40 + 0x80) :: rest) =
        Char.ofNat v :: decodeLoop none rest := by
  have hbegin := beginChar_ofNat (v / 262144 % 0x08 + 0xf0) (by omega)
  rw [if_neg (by omega), if_neg (by omega), if_neg (by omega), if_neg (by omega),
    if_neg (by omega), if_neg (by omega)] at hbegin
  by_cases hfirst : v < 0x40000
  · rw [if_pos (by omega)] at hbegin
    rw [decodeLoop_begin hbegin]
    exact decodeLoop_three (by omega) (show 0x90 ≤ _ by omega) (show _ ≤ 0xbf by omega)
      (by omega) (by omega) (by omega) rest
  rw [if_neg (by omega)] at hbegin
  by_cases hlast : 0x100000 ≤ v
  · rw [if_pos (by omega)] at hbegin
    rw [decodeLoop_begin hbegin]
    exact decodeLoop_three (by omega) (show 0x80 ≤ _ by omega) (show _ ≤ 0x8f by omega)
      (by omega) (by omega) (by omega) rest
  · rw [if_neg (by omega), if_pos (by omega)] at hbegin
    rw [decodeLoop_begin hbegin]
    exact decodeLoop_three (by omega) (show 0x80 ≤ _ by omega) (show _ ≤ 0xbf by omega)
      (by omega) (by omega) (by omega) rest

/-- Decoding an encoded character gives it back. -/
theorem decodeLoop_utf8EncodeChar (c : Char) (rest : List UInt8) :
    decodeLoop none (String.utf8EncodeChar c ++ rest) = c :: decodeLoop none rest := by
  have hc : Char.ofNat c.val.toNat = c := Char.ofNat_toNat c
  have hvalid : c.val.toNat < 0xd800 ∨ (0xdfff < c.val.toNat ∧ c.val.toNat < 0x110000) := c.valid
  unfold String.utf8EncodeChar
  generalize hv : c.val.toNat = v at hc hvalid ⊢
  dsimp only
  by_cases hone : v ≤ 0x7f
  · have hbegin := beginChar_ofNat v (by omega)
    have hascii : Char.ofUInt8 (.ofNat v) = c := by
      apply Char.toNat_inj.mp
      show (UInt8.ofNat v).toNat = c.val.toNat
      rw [UInt8.toNat_ofNat_of_lt' (show v < 256 by omega), hv]
    rw [if_pos (by omega), hascii] at hbegin
    rw [if_pos hone, List.singleton_append, decodeLoop, decodeByte, hbegin]
    rfl
  rw [if_neg hone]
  by_cases htwo : v ≤ 0x7ff
  · have hbegin := beginChar_ofNat (v / 64 % 0x20 + 0xc0) (by omega)
    rw [if_neg (by omega), if_neg (by omega), if_pos (by omega)] at hbegin
    rw [if_pos htwo]
    refine (decodeLoop_begin hbegin _).trans ?_
    exact hc ▸ decodeLoop_last (by omega) (show 0x80 ≤ _ by omega) (show _ ≤ 0xbf by omega)
      (by omega) rest
  rw [if_neg htwo]
  by_cases hthree : v ≤ 0xffff
  · rw [if_pos hthree]
    exact hc ▸ decodeLoop_threeBytes (by omega) (by omega) (by omega) rest
  · rw [if_neg hthree]
    exact hc ▸ decodeLoop_fourBytes (by omega) (by omega) rest

/-- An encoded text is read as it is. -/
theorem decode_utf8 (text : List Char) : decode (utf8 text) = text := by
  induction text with
  | nil => rfl
  | cons c text ih =>
      rw [utf8_cons]
      exact (decodeLoop_utf8EncodeChar c (utf8 text)).trans (congrArg (c :: ·) ih)

/-! ## Line ends -/

theorem return_not_mem_lines {lines : List (List Char)}
    (hlines : ∀ line ∈ lines, ∀ c ∈ line, isLineBreak c = false) :
    ∀ c ∈ lines.flatMap (· ++ ['\n']), c ≠ '\r' := by
  rintro c hc rfl
  obtain ⟨line, hline, hmem⟩ := List.mem_flatMap.mp hc
  rcases List.mem_append.mp hmem with hmem | hmem
  · exact absurd (hlines line hline _ hmem) (by decide)
  · exact absurd hmem (by decide)

/-- Lines without line breaks are read as they were written. -/
theorem readText_lines {lines : List (List Char)}
    (hlines : ∀ line ∈ lines, ∀ c ∈ line, isLineBreak c = false) :
    readText (utf8 (lines.flatMap (· ++ ['\n']))) = lines.flatMap (· ++ ['\n']) := by
  rw [readText, decode_utf8, universalNewlines_eq_self (return_not_mem_lines hlines)]

/-- No CR is left. -/
theorem not_mem_universalNewlines (text : List Char) : '\r' ∉ universalNewlines text := by
  fun_induction universalNewlines text with
  | case1 text ih => simpa using ih
  | case2 text _ ih => simpa using ih
  | case3 c text hcrlf hcr ih =>
      have hne : '\r' ≠ c := fun h => hcr h.symm
      simpa [hne] using ih
  | case4 => simp

/-- What follows a text may take an LF away from its end, but leaves the lines
before alone. -/
theorem universalNewlines_prefix (text more : List Char) :
    universalNewlines text <+: universalNewlines (text ++ more) := by
  fun_induction universalNewlines text with
  | case1 text ih => exact (List.prefix_cons_inj '\n').mpr ih
  | case2 text hlf ih =>
      cases text with
      | nil =>
          cases more with
          | nil => exact List.prefix_rfl
          | cons d more =>
              by_cases hd : d = '\n'
              · subst hd
                exact ⟨universalNewlines more, rfl⟩
              · have hcr : universalNewlines ('\r' :: d :: more) =
                    '\n' :: universalNewlines (d :: more) := by
                  simp [universalNewlines, hd]
                exact ⟨universalNewlines (d :: more), hcr.symm⟩
      | cons d text =>
          have hd : d ≠ '\n' := by
            rintro rfl
            exact hlf text rfl
          have hcr : universalNewlines ('\r' :: (d :: text ++ more)) =
              '\n' :: universalNewlines (d :: text ++ more) := by
            simp [universalNewlines, hd]
          exact hcr ▸ (List.prefix_cons_inj '\n').mpr ih
  | case3 c text hcrlf hcr ih =>
      have hne : c ≠ '\r' := hcr
      have hcons : universalNewlines (c :: (text ++ more)) =
          c :: universalNewlines (text ++ more) := by
        simp [universalNewlines, hne]
      exact hcons ▸ (List.prefix_cons_inj c).mpr ih
  | case4 => exact List.nil_prefix

theorem universalNewlines_snoc {c : Char} (hcr : c ≠ '\r') (hlf : c ≠ '\n')
    (text : List Char) :
    universalNewlines (text ++ [c]) = universalNewlines text ++ [c] := by
  fun_induction universalNewlines text with
  | case1 text ih => exact congrArg ('\n' :: ·) ih
  | case2 text hrest ih =>
      cases text with
      | nil => simp [universalNewlines, hlf]
      | cons d text =>
          have hd : d ≠ '\n' := by
            rintro rfl
            exact hrest text rfl
          have hcons : universalNewlines ('\r' :: (d :: text ++ [c])) =
              '\n' :: universalNewlines (d :: text ++ [c]) := by
            simp [universalNewlines, hd]
          exact hcons.trans (congrArg ('\n' :: ·) ih)
  | case3 d text hcrlf hnot ih =>
      have hne : d ≠ '\r' := hnot
      have hcons : universalNewlines (d :: (text ++ [c])) =
          d :: universalNewlines (text ++ [c]) := by
        simp [universalNewlines, hne]
      exact hcons.trans (congrArg (d :: ·) ih)
  | case4 => simp [universalNewlines]

/-! ## Lines -/

/-- The lines of a text that goes on. -/
theorem splitlines_grown {text : List Char} (htext : '\r' ∉ text) (more : List Char) :
    Grown (splitlines text) (splitlines (text ++ more)) := by
  induction text with
  | nil => exact .nil _
  | cons c text ih =>
      rw [List.mem_cons, not_or] at htext
      have hrest := ih htext.2
      rw [List.cons_append, splitlines_cons (Ne.symm htext.1), splitlines_cons (Ne.symm htext.1)]
      split
      · exact .cons [] hrest
      · exact hrest.consHead c

/-- The lines of a text with a character at its end that ends no line. -/
theorem splitlines_padded {text : List Char} (htext : '\r' ∉ text) {c : Char}
    (hc : isLineBreak c = false) :
    Padded c (splitlines text) (splitlines (text ++ [c])) := by
  induction text with
  | nil =>
      have hcr : c ≠ '\r' := by
        rintro rfl
        exact absurd hc (by decide)
      rw [List.nil_append, splitlines_cons hcr, hc]
      exact .nil
  | cons d text ih =>
      rw [List.mem_cons, not_or] at htext
      have hrest := ih htext.2
      rw [List.cons_append, splitlines_cons (Ne.symm htext.1), splitlines_cons (Ne.symm htext.1)]
      split
      · exact .cons [] hrest
      · exact hrest.consHead d

/-- A line that begins with a word still does when it goes on. -/
theorem startsWith_append {word line : List Char} (h : startsWith word line = true)
    (more : List Char) : startsWith word (line ++ more) = true := by
  unfold startsWith at h ⊢
  rw [List.isPrefixOf_iff_prefix] at h ⊢
  exact h.trans (List.prefix_append line more)

/-- A character that a word lacks does not complete it. -/
theorem startsWith_snoc {word : List Char} {c : Char} (hc : c ∉ word) (line : List Char) :
    startsWith word (line ++ [c]) = startsWith word line := by
  unfold startsWith
  rw [Bool.eq_iff_iff, List.isPrefixOf_iff_prefix, List.isPrefixOf_iff_prefix]
  constructor
  · intro h
    rcases List.prefix_concat_iff.mp h with heq | hpre
    · rw [heq] at hc
      simp at hc
    · exact hpre
  · intro h
    exact h.trans (List.prefix_append line [c])

/-- The lines that begin with a word are found again in a file that grew, before
all others that do. -/
theorem readText_positions {word : List Char} (hne : word ≠ []) (hword : REPLACEMENT ∉ word)
    {bytes bytes' : List UInt8} (hgrown : bytes <+: bytes') :
    positions (startsWith word) 0 (splitlines (readText bytes)) <+:
      positions (startsWith word) 0 (splitlines (readText bytes')) := by
  obtain ⟨more, rfl⟩ := hgrown
  obtain ⟨text, rest, hlong, hshort⟩ := decode_append bytes more
  have hcr := not_mem_universalNewlines text
  -- what both readings show of the agreed text
  have hpre : positions (startsWith word) 0 (splitlines (universalNewlines text)) <+:
      positions (startsWith word) 0 (splitlines (readText (bytes ++ more))) := by
    unfold readText
    rw [hlong]
    obtain ⟨tail, htail⟩ := universalNewlines_prefix text rest
    rw [← htail]
    exact (splitlines_grown hcr tail).prefix_positions (p := startsWith word)
      (fun line more h => startsWith_append h more) 0
  rcases hshort with hsame | hcut
  · unfold readText
    rw [hsame]
    exact hpre
  · have hpad := splitlines_padded hcr (c := REPLACEMENT) (by decide)
    have hempty : startsWith word [] = false := by
      cases word with
      | nil => exact absurd rfl hne
      | cons c word => rfl
    unfold readText
    rw [hcut, universalNewlines_snoc (by decide) (by decide),
      hpad.positions_eq hempty (startsWith_snoc hword)]
    exact hpre

end B4n.Webapp
