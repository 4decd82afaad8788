import Mathlib.Data.Vector.Basic

/-!
# Byte strings and their fixed-width and variable-width integers

Headers are laid out as fixed-width big-endian fields and serialised records
use little-endian base-128 integers.  Both layouts are prefix codes: a field
followed by anything else determines the field and the rest.  This module
proves that for arbitrary widths, so that a record layout is injective as
soon as each of its fields is.

## Main results

* `beBytes_append_inj` — a fixed-width big-endian field can be split off.
* `varint_append_inj` — a base-128 integer can be split off.
-/

namespace B4n.Lib

/-- A byte array of static length, as Rust's `[u8; n]`. -/
abbrev Bytes (n : Nat) := List.Vector UInt8 n

/-! ## Fixed-width big-endian integers -/

/-- The `width` low-order bytes of `value`, most significant first. -/
def beBytes : Nat → Nat → List UInt8
  | 0, _ => []
  | width + 1, value => beBytes width (value / 256) ++ [UInt8.ofNat value]

@[simp] theorem length_beBytes (width value : Nat) :
    (beBytes width value).length = width := by
  induction width generalizing value with
  | zero => rfl
  | succ width ih => simp [beBytes, ih]

/-- Values below the width's range are recovered from their bytes. -/
theorem beBytes_inj {width a b : Nat} (ha : a < 256 ^ width)
    (hb : b < 256 ^ width) (h : beBytes width a = beBytes width b) :
    a = b := by
  induction width generalizing a b with
  | zero =>
      rw [Nat.pow_zero] at ha hb
      omega
  | succ width ih =>
      rw [Nat.pow_succ] at ha hb
      obtain ⟨hHigh, hLow⟩ := List.append_inj h (by simp)
      have hq : a / 256 = b / 256 :=
        ih (Nat.div_lt_of_lt_mul (by omega)) (Nat.div_lt_of_lt_mul (by omega))
          hHigh
      have hr : a % 256 = b % 256 := by
        have hByte := congrArg UInt8.toNat (List.singleton_inj.mp hLow)
        simpa using hByte
      omega

/-- The value of big-endian bytes. -/
def beValue (bytes : List UInt8) : Nat :=
  bytes.foldl (fun acc byte => 256 * acc + byte.toNat) 0

/-- Values below the width's range are read back. -/
theorem beValue_beBytes {width value : Nat} (h : value < 256 ^ width) :
    beValue (beBytes width value) = value := by
  induction width generalizing value with
  | zero =>
      rw [Nat.pow_zero] at h
      show 0 = value
      omega
  | succ width ih =>
      rw [Nat.pow_succ] at h
      have hHigh := ih (Nat.div_lt_of_lt_mul (by omega) :
        value / 256 < 256 ^ width)
      unfold beValue at hHigh ⊢
      rw [beBytes, List.foldl_append, hHigh]
      show 256 * (value / 256) + (UInt8.ofNat value).toNat = value
      rw [UInt8.toNat_ofNat']
      omega

/-- A fixed-width field can be split off a longer byte string. -/
theorem beBytes_append_inj {width a b : Nat} {xs ys : List UInt8}
    (ha : a < 256 ^ width) (hb : b < 256 ^ width)
    (h : beBytes width a ++ xs = beBytes width b ++ ys) :
    a = b ∧ xs = ys := by
  obtain ⟨hField, hRest⟩ := List.append_inj h (by simp)
  exact ⟨beBytes_inj ha hb hField, hRest⟩

/-- A byte array of static length can be split off a longer byte string. -/
theorem bytes_append_inj {n : Nat} {a b : Bytes n} {xs ys : List UInt8}
    (h : a.toList ++ xs = b.toList ++ ys) : a = b ∧ xs = ys := by
  obtain ⟨hField, hRest⟩ := List.append_inj h (by simp)
  exact ⟨List.Vector.toList_injective hField, hRest⟩

/-! ## Little-endian base-128 integers -/

/-- At most `groups` base-128 digits of `value`, least significant first; the
high bit of a byte says that another digit follows. -/
def varint : Nat → Nat → List UInt8
  | 0, _ => []
  | groups + 1, value =>
      if value < 128 then [UInt8.ofNat value]
      else UInt8.ofNat (value % 128 + 128) :: varint groups (value / 128)

/-- A base-128 integer can be split off a longer byte string; what is known of
it is its value within the range of the digits. -/
theorem varint_append_inj {groups a b : Nat} {xs ys : List UInt8}
    (h : varint groups a ++ xs = varint groups b ++ ys) :
    a % 128 ^ groups = b % 128 ^ groups ∧ xs = ys := by
  induction groups generalizing a b with
  | zero => exact ⟨by simp [Nat.mod_one], by simpa [varint] using h⟩
  | succ groups ih =>
      rw [Nat.pow_succ', Nat.mod_mul, Nat.mod_mul]
      -- the high bit of the first byte decides whether the integer ends here
      by_cases hA : a < 128 <;> by_cases hB : b < 128 <;>
        simp only [varint, hA, hB, if_true, if_false, List.cons_append,
          List.nil_append, List.cons.injEq] at h
      all_goals
        obtain ⟨hByte, hRest⟩ := h
        have hNat := congrArg UInt8.toNat hByte
        simp only [UInt8.toNat_ofNat'] at hNat
      · have heq : a = b := by omega
        exact ⟨by rw [heq], hRest⟩
      · omega
      · omega
      · obtain ⟨hq, hxs⟩ := ih hRest
        exact ⟨by rw [hq]; omega, hxs⟩

end B4n.Lib
