import B4n.Lib.Hex
import B4n.Lib.Lines
import B4n.Lib.Text
import Mathlib.Data.List.TakeWhile

/-!
# Built-in functions of Python

What the web application uses of Python's strings: white space, decimal
numerals and string literals.  Texts are read from files as characters; what a
literal denotes is a list of code points, since an escape can name a surrogate.

The Unicode character database enters as `CharacterTable`, of which only the
ASCII part is fixed.
-/

namespace B4n.Webapp

open B4n.Lib

/-- The properties of characters that come from the Unicode database. -/
class CharacterTable where
  /-- the value of a decimal digit, which `\d` matches and `int` reads -/
  decimal : Char → Option Nat
  /-- a letter, a digit or an underscore, which `\w` matches -/
  isWord : Char → Bool
  /-- the code point that `\N` finds by name -/
  lookup : List Char → Option Nat
  decimal_ascii : ∀ c : Char, c.toNat < 128 →
    decimal c = if c.isDigit then some (c.toNat - 48) else none
  isWord_ascii : ∀ c : Char, c.toNat < 128 → isWord c = (c.isAlphanum || c == '_')

/-! ## White space -/

/-- `str.isspace` of one character -/
def isSpace (c : Char) : Bool :=
  let n := c.toNat
  (0x09 ≤ n && n ≤ 0x0d) || (0x1c ≤ n && n ≤ 0x20) || n == 0x85 || n == 0xa0 ||
    n == 0x1680 || (0x2000 ≤ n && n ≤ 0x200a) || n == 0x2028 || n == 0x2029 ||
    n == 0x202f || n == 0x205f || n == 0x3000

/-- `str.strip` -/
def strip (text : List Char) : List Char :=
  ((text.dropWhile isSpace).reverse.dropWhile isSpace).reverse

/-- `str.rstrip` -/
def rstrip (text : List Char) : List Char :=
  (text.reverse.dropWhile isSpace).reverse

theorem strip_eq_trimBy (text : List Char) : strip text = Text.trimBy isSpace text := rfl

@[simp] theorem strip_nil : strip [] = [] := rfl

theorem strip_cons_space {c : Char} (hc : isSpace c = true) (text : List Char) :
    strip (c :: text) = strip text := by
  simp [strip, hc]

theorem strip_eq_nil_iff {text : List Char} :
    strip text = [] ↔ ∀ c ∈ text, isSpace c = true := by
  induction text with
  | nil => simp
  | cons c text ih =>
      by_cases hc : isSpace c = true
      · rw [strip_cons_space hc, ih]
        simp [hc]
      · have hdrop : (c :: text).dropWhile isSpace = c :: text := by simp [hc]
        simp only [strip, hdrop, List.reverse_eq_nil_iff, List.dropWhile_eq_nil_iff,
          List.mem_reverse]

/-- A text with a character other than white space at both ends stays. -/
theorem strip_eq_self {a b : Char} {w : List Char} (ha : isSpace a = false)
    (hb : isSpace b = false) : strip (a :: (w ++ [b])) = a :: (w ++ [b]) := by
  simp [strip, ha, hb]

/-! ## Lines -/

/-- `str.startswith`, for the lines of a text. -/
def startsWith (word line : List Char) : Bool := word.isPrefixOf line

/-- The characters that end a line for `str.splitlines`. -/
def isLineBreak (c : Char) : Bool :=
  let n := c.toNat
  (0x0a ≤ n && n ≤ 0x0d) || (0x1c ≤ n && n ≤ 0x1e) || n == 0x85 || n == 0x2028 || n == 0x2029

/-- `str.splitlines` -/
def splitlines : List Char → List (List Char)
  | [] => []
  | '\r' :: '\n' :: text => [] :: splitlines text
  | c :: text => if isLineBreak c then [] :: splitlines text else consHead c (splitlines text)

/-- The universal newlines of text files and of source code. -/
def universalNewlines : List Char → List Char
  | '\r' :: '\n' :: text => '\n' :: universalNewlines text
  | '\r' :: text => '\n' :: universalNewlines text
  | c :: text => c :: universalNewlines text
  | [] => []

theorem splitlines_cons {c : Char} (hc : c ≠ '\r') (text : List Char) :
    splitlines (c :: text) =
      if isLineBreak c then [] :: splitlines text else consHead c (splitlines text) := by
  simp [splitlines, hc]

/-- A line without line breaks is split off where it ends. -/
theorem splitlines_append {line : List Char} (hline : ∀ c ∈ line, isLineBreak c = false)
    (text : List Char) : splitlines (line ++ '\n' :: text) = line :: splitlines text := by
  induction line with
  | nil => rfl
  | cons c line ih =>
      have hc := hline c List.mem_cons_self
      have hcr : c ≠ '\r' := by
        rintro rfl
        exact absurd hc (by decide)
      have hmore := ih fun d hd => hline d (List.mem_cons_of_mem c hd)
      rw [List.cons_append, splitlines_cons hcr, hc, hmore]
      rfl

theorem splitlines_flatMap {lines : List (List Char)}
    (hlines : ∀ line ∈ lines, ∀ c ∈ line, isLineBreak c = false) :
    splitlines (lines.flatMap (· ++ ['\n'])) = lines := by
  induction lines with
  | nil => rfl
  | cons line lines ih =>
      have hmore := ih fun l hl => hlines l (List.mem_cons_of_mem line hl)
      rw [List.flatMap_cons, List.append_assoc, List.singleton_append,
        splitlines_append (hlines line List.mem_cons_self), hmore]

theorem universalNewlines_eq_self {source : List Char} (h : ∀ c ∈ source, c ≠ '\r') :
    universalNewlines source = source := by
  induction source with
  | nil => rfl
  | cons c source ih =>
      have hc := h c List.mem_cons_self
      have hmore := ih fun d hd => h d (List.mem_cons_of_mem c hd)
      simp [universalNewlines, hc, hmore]

/-! ## Numerals -/

section Numerals

variable [CharacterTable]

/-- `sys.get_int_max_str_digits()` -/
def INT_MAX_STR_DIGITS : Nat := 4300

/-- `int` of a text of decimal digits; `none` is `ValueError`. -/
def int (digits : List Char) : Option Nat :=
  if digits.isEmpty || INT_MAX_STR_DIGITS < digits.length ||
      !digits.all fun c => (CharacterTable.decimal c).isSome then none
  else some (digits.foldl (fun acc c => 10 * acc + (CharacterTable.decimal c).getD 0) 0)

theorem decimal_of_isDigit {c : Char} (hc : c.isDigit = true) :
    CharacterTable.decimal c = some (c.toNat - 48) := by
  have hascii : c.toNat < 128 := by
    simp only [Char.isDigit, Bool.and_eq_true, decide_eq_true_eq] at hc
    have hle : c.val.toNat ≤ 57 := hc.2
    show c.val.toNat < 128
    omega
  rw [CharacterTable.decimal_ascii c hascii, if_pos hc]

/-- `int` undoes the printing of an integer, as long as it has not too many
digits. -/
theorem int_toDigits {n : Nat} (hn : n < 10 ^ INT_MAX_STR_DIGITS) :
    int (Nat.toDigits 10 n) = some n := by
  have hdigit : ∀ c ∈ Nat.toDigits 10 n, CharacterTable.decimal c = some (c.toNat - 48) :=
    fun c hc => decimal_of_isDigit (Nat.isDigit_of_mem_toDigits (by decide) (by decide) hc)
  have hlen : (Nat.toDigits 10 n).length ≤ INT_MAX_STR_DIGITS :=
    (Nat.length_toDigits_le_iff (by decide) (by decide)).mpr hn
  have hpos : 0 < (Nat.toDigits 10 n).length := Nat.length_toDigits_pos
  have hvalue : ∀ (digits : List Char) (acc : Nat),
      (∀ c ∈ digits, CharacterTable.decimal c = some (c.toNat - 48)) →
      digits.foldl (fun acc c => 10 * acc + (CharacterTable.decimal c).getD 0) acc =
        Nat.ofDigitChars 10 digits acc := by
    intro digits
    induction digits with
    | nil => intro acc _; rfl
    | cons c digits ih =>
        intro acc h
        simp only [List.foldl_cons, Nat.ofDigitChars, h c List.mem_cons_self]
        exact ih _ fun d hd => h d (List.mem_cons_of_mem c hd)
  have hall : (Nat.toDigits 10 n).all (fun c => (CharacterTable.decimal c).isSome) = true := by
    rw [List.all_eq_true]
    intro c hc
    simp [hdigit c hc]
  have hne : (Nat.toDigits 10 n).isEmpty = false := by
    rw [List.isEmpty_eq_false_iff]
    exact List.ne_nil_of_length_pos hpos
  have hfits : decide (INT_MAX_STR_DIGITS < (Nat.toDigits 10 n).length) = false := by
    simpa using hlen
  simp only [int, hne, hfits, hall, Bool.or_false, Bool.not_true]
  rw [hvalue _ 0 hdigit, Nat.ofDigitChars_ten_toDigits]
  rfl

end Numerals

/-! ## String literals -/

/-- A digit of base eight. -/
def isOctal (c : Char) : Bool := '0' ≤ c && c ≤ '7'

/-- The value of a numeral of base eight. -/
def ofOctal (digits : List Char) : Nat :=
  digits.foldl (fun acc c => 8 * acc + (c.toNat - 48)) 0

theorem isHex_of_isOctal {c : Char} (hc : isOctal c = true) : isHex c = true := by
  simp only [isOctal, isHex, Bool.or_eq_true, Bool.and_eq_true, decide_eq_true_eq,
    Char.le_def, UInt32.le_iff_toNat_le] at hc ⊢
  refine .inl (.inl ⟨hc.1, ?_⟩)
  exact hc.2.trans (by decide)

/-- A zero and two more digits stay below the letters. -/
theorem ofOctal_lt {digits : List Char} (hdigits : ∀ c ∈ digits, isOctal c = true)
    (hlen : digits.length ≤ 2) : ofOctal ('0' :: digits) < 64 := by
  have hdigit : ∀ c, isOctal c = true → c.toNat - 48 ≤ 7 := by
    intro c hc
    simp only [isOctal, Bool.and_eq_true, decide_eq_true_eq, Char.le_def,
      UInt32.le_iff_toNat_le] at hc
    have hle : c.toNat ≤ 55 := hc.2
    omega
  match digits, hlen with
  | [], _ => decide
  | [c], _ =>
      have hc := hdigit c (hdigits c (by simp))
      simp [ofOctal]
      omega
  | [c, d], _ =>
      have hc := hdigit c (hdigits c (by simp))
      have hd := hdigit d (hdigits d (by simp))
      simp [ofOctal]
      omega

/-- The escapes of one character; a backslash at the end of a line joins it
with the next one. -/
def simpleEscape : Char → Option (List Nat)
  | '\n' => some []
  | '\\' => some [0x5c]
  | '\'' => some [0x27]
  | '"' => some [0x22]
  | 'a' => some [0x07]
  | 'b' => some [0x08]
  | 'f' => some [0x0c]
  | 'n' => some [0x0a]
  | 'r' => some [0x0d]
  | 't' => some [0x09]
  | 'v' => some [0x0b]
  | _ => none

/-- A code point given by exactly `count` digits of base sixteen. -/
def readHex (count : Nat) (text : List Char) : Option (List Nat × List Char) :=
  let digits := text.take count
  if digits.length == count && digits.all isHex && ofHex digits ≤ 0x10ffff then
    some ([ofHex digits], text.drop count)
  else none

section Literals

variable [CharacterTable]

/-- A code point given by its name in braces. -/
def readName : List Char → Option (List Nat × List Char)
  | '{' :: text =>
      let name := text.takeWhile (· != '}')
      match text.drop name.length with
      | [] => none
      | _ :: rest =>
          if name.isEmpty then none
          else (CharacterTable.lookup name).map fun code => ([code], rest)
  | _ => none

/-- What follows a backslash: the code points it stands for, and the rest.  An
unknown escape stands for itself. -/
def readEscape : List Char → Option (List Nat × List Char)
  | [] => none
  | c :: text =>
      match simpleEscape c with
      | some codes => some (codes, text)
      | none =>
          if c == 'x' then readHex 2 text
          else if c == 'u' then readHex 4 text
          else if c == 'U' then readHex 8 text
          else if c == 'N' then readName text
          else if isOctal c then
            let digits := (c :: text.takeWhile isOctal).take 3
            some ([ofOctal digits], (c :: text).drop digits.length)
          else some ([0x5c, c.toNat], text)

/-- The rest of a literal after its opening quote. -/
def readBody : Nat → List Char → Option (List Nat)
  | 0, _ => none
  | _ + 1, [] => none
  | fuel + 1, c :: text =>
      if c == '"' then if text.isEmpty then some [] else none
      else if c == '\n' then none
      else if c == '\\' then
        match readEscape text with
        | none => none
        | some (codes, rest) => (readBody fuel rest).map (codes ++ ·)
      else (readBody fuel text).map (c.toNat :: ·)

/-- `ast.literal_eval` of one string literal between double quotes, the only
source that it is given here; `none` is `SyntaxError` or `ValueError`. -/
def literalEval (source : List Char) : Option (List Nat) :=
  if source.contains '\x00' then none
  else
    match universalNewlines source with
    | '"' :: text => readBody text.length text
    | _ => none

end Literals

end B4n.Webapp
