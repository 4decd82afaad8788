import B4n.Lib.ByteCodec

/-!
# Prefix codes

A prefix code turns values into byte strings that can be read off the front of
any longer byte string.  The law is a field of the structure, so a code built
from codes by the combinators of this module is a code, and nothing is left to
prove about it.

The integers are little-endian base-128 integers of any length; a list is its
length followed by its items, and a text is the list of its UTF-8 bytes.
-/

namespace B4n.Lib

variable {α β : Type}

/-- A code whose words can be read off the front of a byte string. -/
structure PrefixCode (α : Type) where
  encode : α → List UInt8
  decode : List UInt8 → Option (α × List UInt8)
  decode_encode : ∀ (a : α) (rest : List UInt8),
    decode (encode a ++ rest) = some (a, rest)

/-! ## Base-128 integers -/

/-- Read a base-128 integer. -/
def decodeVarint : List UInt8 → Option (Nat × List UInt8)
  | [] => none
  | byte :: bytes =>
      if byte.toNat < 128 then some (byte.toNat, bytes)
      else
        match decodeVarint bytes with
        | none => none
        | some (high, rest) => some (byte.toNat - 128 + 128 * high, rest)

theorem decodeVarint_varint {groups value : Nat} (hpos : 0 < groups)
    (hvalue : value < 128 ^ groups) (rest : List UInt8) :
    decodeVarint (varint groups value ++ rest) = some (value, rest) := by
  induction groups generalizing value with
  | zero => omega
  | succ groups ih =>
      unfold varint
      by_cases hlast : value < 128
      · rw [if_pos hlast]
        show (if (UInt8.ofNat value).toNat < 128 then _ else _) = _
        have hbyte : (UInt8.ofNat value).toNat = value := by
          rw [UInt8.toNat_ofNat']
          omega
        rw [hbyte, if_pos hlast]
        rfl
      · rw [if_neg hlast]
        have hmore : 0 < groups := by
          apply Nat.pos_of_ne_zero
          rintro rfl
          omega
        rw [Nat.pow_succ] at hvalue
        have hhigh := ih hmore
          (Nat.div_lt_of_lt_mul (by omega) : value / 128 < 128 ^ groups)
        have hbyte : (UInt8.ofNat (value % 128 + 128)).toNat =
            value % 128 + 128 := by
          rw [UInt8.toNat_ofNat']
          omega
        rw [List.cons_append, decodeVarint, hbyte, if_neg (by omega), hhigh]
        show some (value % 128 + 128 - 128 + 128 * (value / 128), rest) = _
        rw [Nat.add_sub_cancel, Nat.mod_add_div]

theorem length_varint_le (groups value : Nat) :
    (varint groups value).length ≤ groups := by
  induction groups generalizing value with
  | zero => exact Nat.le_refl _
  | succ groups ih =>
      unfold varint
      split
      · show 1 ≤ groups + 1
        omega
      · rw [List.length_cons]
        have hle := ih (value / 128)
        omega

namespace PrefixCode

/-- Base-128 integers; `value + 1` digits are more than enough. -/
def nat : PrefixCode Nat where
  encode value := varint (value + 1) value
  decode := decodeVarint
  decode_encode value rest := by
    apply decodeVarint_varint (Nat.succ_pos value)
    have hlt : value < 128 ^ value := Nat.lt_pow_self (by decide)
    exact hlt.trans (Nat.pow_lt_pow_right (by decide) (Nat.lt_succ_self value))

/-! ## Combinators -/

/-- A code for values that have a word of another code. -/
def via (code : PrefixCode α) (word : β → α) (value : α → Option β)
    (hvalue : ∀ b, value (word b) = some b) : PrefixCode β where
  encode b := code.encode (word b)
  decode bytes :=
    match code.decode bytes with
    | none => none
    | some (a, rest) => (value a).map fun b => (b, rest)
  decode_encode b rest := by
    rw [code.decode_encode]
    show (value (word b)).map _ = _
    rw [hvalue]
    rfl

/-- One value after the other. -/
def pair (first : PrefixCode α) (second : PrefixCode β) :
    PrefixCode (α × β) where
  encode p := first.encode p.1 ++ second.encode p.2
  decode bytes :=
    match first.decode bytes with
    | none => none
    | some (a, rest) =>
        match second.decode rest with
        | none => none
        | some (b, rest) => some ((a, b), rest)
  decode_encode p rest := by
    rw [List.append_assoc, first.decode_encode]
    dsimp only
    rw [second.decode_encode]

/-- Read as many values as given. -/
def decodeMany (code : PrefixCode α) :
    Nat → List UInt8 → Option (List α × List UInt8)
  | 0, bytes => some ([], bytes)
  | count + 1, bytes =>
      match code.decode bytes with
      | none => none
      | some (a, rest) =>
          match decodeMany code count rest with
          | none => none
          | some (as, rest) => some (a :: as, rest)

theorem decodeMany_flatMap (code : PrefixCode α) (as : List α)
    (rest : List UInt8) :
    code.decodeMany as.length (as.flatMap code.encode ++ rest) =
      some (as, rest) := by
  induction as with
  | nil => rfl
  | cons a as ih =>
      rw [List.flatMap_cons, List.append_assoc, List.length_cons, decodeMany,
        code.decode_encode]
      dsimp only
      rw [ih]

/-- The number of the values, then the values. -/
def list (code : PrefixCode α) : PrefixCode (List α) where
  encode as := nat.encode as.length ++ as.flatMap code.encode
  decode bytes :=
    match nat.decode bytes with
    | none => none
    | some (count, rest) => code.decodeMany count rest
  decode_encode as rest := by
    rw [List.append_assoc, nat.decode_encode]
    exact code.decodeMany_flatMap as rest

/-! ## Bytes and text -/

def byte : PrefixCode UInt8 where
  encode b := [b]
  decode
    | [] => none
    | b :: rest => some (b, rest)
  decode_encode _ _ := rfl

/-- Byte arrays of static length, without it. -/
def bytes (n : Nat) : PrefixCode (Bytes n) where
  encode v := v.toList
  decode input :=
    if h : n ≤ input.length then
      some (⟨input.take n, List.length_take_of_le h⟩, input.drop n)
    else none
  decode_encode v rest := by
    have hlength : n ≤ (v.toList ++ rest).length := by
      rw [List.length_append, v.toList_length]
      omega
    rw [dif_pos hlength]
    apply congrArg some
    apply Prod.ext
    · apply List.Vector.toList_injective
      exact List.take_left' v.toList_length
    · exact List.drop_left' v.toList_length

def text : PrefixCode String :=
  byte.list.via (fun s => s.toByteArray.data.toList)
    (fun bytes => String.fromUTF8? ⟨bytes.toArray⟩) (by
      intro s
      show String.fromUTF8? ⟨s.toByteArray.data.toList.toArray⟩ = some s
      rw [Array.toArray_toList]
      show String.fromUTF8? s.toByteArray = some s
      unfold String.fromUTF8?
      rw [dif_pos s.isValidUTF8]
      rfl)

end PrefixCode

end B4n.Lib
