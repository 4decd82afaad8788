import Mathlib.Algebra.Group.Nat.Defs

/-!
# Hexadecimal numerals

Reading numerals of base sixteen in either case, and the lower case numerals
that `Nat.toDigits 16` writes, bare or padded with zeros.

## Main results

* `ofHex_toDigits`, `ofHex_hexPad` — a written numeral reads back.
* `length_hexPad` — the width of a padded numeral.
-/

namespace B4n.Lib

/-- A digit of base sixteen. -/
def isHex (c : Char) : Bool :=
  ('0' ≤ c && c ≤ '9') || ('a' ≤ c && c ≤ 'f') || ('A' ≤ c && c ≤ 'F')

/-- The value of a digit of base sixteen. -/
def hexValue (c : Char) : Nat :=
  if c ≤ '9' then c.toNat - 48
  else if c ≤ 'F' then c.toNat - 55
  else c.toNat - 87

/-- The value of a numeral of base sixteen. -/
def ofHex (digits : List Char) : Nat :=
  digits.foldl (fun acc c => 16 * acc + hexValue c) 0

/-- A numeral of at least `width` digits. -/
def hexPad (width n : Nat) : List Char :=
  List.replicate (width - (Nat.toDigits 16 n).length) '0' ++ Nat.toDigits 16 n

theorem isHex_bounds {c : Char} (h : isHex c = true) : 48 ≤ c.toNat ∧ c.toNat ≤ 102 := by
  simp only [isHex, Bool.or_eq_true, Bool.and_eq_true, decide_eq_true_eq, Char.le_def,
    UInt32.le_iff_toNat_le] at h
  have hnat : c.toNat = c.val.toNat := rfl
  rcases h with (⟨hlow, hhigh⟩ | ⟨hlow, hhigh⟩) | ⟨hlow, hhigh⟩ <;> simp at hlow hhigh <;> omega

theorem isHex_digitChar : ∀ d < 16, isHex (Nat.digitChar d) = true := by
  decide

theorem hexValue_digitChar : ∀ d < 16, hexValue (Nat.digitChar d) = d := by
  decide

theorem isHex_of_mem_toDigits {n : Nat} {c : Char} (h : c ∈ Nat.toDigits 16 n) :
    isHex c = true := by
  induction n using Nat.strongRecOn with
  | ind n ih =>
      by_cases hn : n < 16
      · rw [Nat.toDigits_of_lt_base hn, List.mem_singleton] at h
        rw [h]
        exact isHex_digitChar n hn
      · rw [Nat.toDigits_of_base_le (by decide) (by omega), List.mem_append,
          List.mem_singleton] at h
        cases h with
        | inl hmore => exact ih (n / 16) (by omega) hmore
        | inr hlast =>
            rw [hlast]
            exact isHex_digitChar (n % 16) (by omega)

theorem ofHex_append_singleton (digits : List Char) (c : Char) :
    ofHex (digits ++ [c]) = 16 * ofHex digits + hexValue c := by
  simp [ofHex]

theorem ofHex_toDigits (n : Nat) : ofHex (Nat.toDigits 16 n) = n := by
  induction n using Nat.strongRecOn with
  | ind n ih =>
      by_cases hn : n < 16
      · rw [Nat.toDigits_of_lt_base hn]
        simp [ofHex, hexValue_digitChar n hn]
      · have hmore := ih (n / 16) (by omega)
        have hlast := hexValue_digitChar (n % 16) (by omega)
        rw [Nat.toDigits_of_base_le (by decide) (by omega), ofHex_append_singleton, hmore, hlast]
        omega

/-- Leading zeros do not count. -/
theorem ofHex_replicate_append (k : Nat) (digits : List Char) :
    ofHex (List.replicate k '0' ++ digits) = ofHex digits := by
  induction k with
  | zero => rfl
  | succ k ih => exact ih

theorem ofHex_hexPad (width n : Nat) : ofHex (hexPad width n) = n := by
  rw [hexPad, ofHex_replicate_append, ofHex_toDigits]

theorem isHex_of_mem_hexPad {width n : Nat} {c : Char} (h : c ∈ hexPad width n) :
    isHex c = true := by
  rcases List.mem_append.mp h with hzero | hdigit
  · rw [(List.mem_replicate.mp hzero).2]
    decide
  · exact isHex_of_mem_toDigits hdigit

theorem length_hexPad {width n : Nat} (hwidth : 0 < width) (hn : n < 16 ^ width) :
    (hexPad width n).length = width := by
  have hlen : (Nat.toDigits 16 n).length ≤ width :=
    (Nat.length_toDigits_le_iff (by decide) hwidth).mpr hn
  simp only [hexPad, List.length_append, List.length_replicate]
  omega

end B4n.Lib
