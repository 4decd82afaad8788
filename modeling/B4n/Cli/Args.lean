import B4n.Lib.ByteCodec
import B4n.Lib.Utf8
import Mathlib.Data.List.FinRange
import Mathlib.Data.Vector.Basic

/-!
# Keys on the command line

The two functions of `cli/args.rs` that read and write keys as hexadecimal
text.  A string is looked at byte by byte, so the length that counts is its
length in UTF-8, and a byte of a longer character is refused like any other
byte that is not a digit.

Every index of the source carries the proof of its bound here, and the bytes
that `bytes_to_hex` collects the proof that they are UTF-8: no call can panic.

## Main results

* `hexTo32_bytesToHex` — a written key reads back.
* `hexTo32_eq_ok_iff` — what is read, and as which key.
* `hexTo32_bijection` — reading and writing are inverse to each other, up to the
  case of the letters.
-/

namespace B4n.Cli

open B4n.Lib

/-! ## The functions of the source -/

/-- `hex_val` -/
def hexVal (b : UInt8) : Option UInt8 :=
  if '0'.toUInt8 ≤ b ∧ b ≤ '9'.toUInt8 then some (b - '0'.toUInt8)
  else if 'a'.toUInt8 ≤ b ∧ b ≤ 'f'.toUInt8 then some (b - 'a'.toUInt8 + 10)
  else if 'A'.toUInt8 ≤ b ∧ b ≤ 'F'.toUInt8 then some (b - 'A'.toUInt8 + 10)
  else none

/-- A digit of the input, or the error that names its position. -/
def hexDigitAt (bytes : List UInt8) (pos : Fin bytes.length) : Except String UInt8 :=
  match hexVal (bytes.get pos) with
  | some v => .ok v
  | none => .error ("invalid hex at pos " ++ toString pos.val)

/-- The round `i` of the loop of `hex_to_32`: the byte `out[i]`. -/
def hexRound (bytes : List UInt8) (hlen : bytes.length = 64) (i : Fin 32) :
    Except String UInt8 := do
  let hi ← hexDigitAt bytes ⟨2 * i, by omega⟩
  let lo ← hexDigitAt bytes ⟨2 * i + 1, by omega⟩
  .ok ((hi <<< 4) ||| lo)

/-- `hex_to_32` -/
def hexTo32 (s : String) : Except String (Bytes 32) :=
  let bytes := s.toByteArray.data.toList
  if hlen : bytes.length = 64 then List.Vector.mOfFn (hexRound bytes hlen)
  else .error ("seed must be 64 hex chars, got " ++ toString bytes.length)

/-- `LOOKUP_TABLE` -/
def LOOKUP_TABLE : List.Vector UInt8 16 :=
  ⟨"0123456789abcdef".toList.map Char.toUInt8, rfl⟩

theorem toNat_shiftRight_lt (b : UInt8) : (b >>> 4).toNat < 16 := by
  have hb := b.toNat_lt
  rw [UInt8.toNat_shiftRight, Nat.shiftRight_eq_div_pow]
  show b.toNat / 16 < 16
  omega

theorem toNat_and_lt (b : UInt8) : (b &&& 0x0f).toNat < 16 := by
  rw [UInt8.toNat_and]
  exact Nat.lt_of_le_of_lt Nat.and_le_right (by decide)

/-- The two digits that `bytes_to_hex` pushes for a byte. -/
def hexDigits (b : UInt8) : List UInt8 :=
  [LOOKUP_TABLE.get ⟨(b >>> 4).toNat, toNat_shiftRight_lt b⟩,
    LOOKUP_TABLE.get ⟨(b &&& 0x0f).toNat, toNat_and_lt b⟩]

/-- The vector that `bytes_to_hex` fills. -/
def hexBytes (bytes : List UInt8) : List UInt8 := bytes.flatMap hexDigits

theorem lookup_lt : ∀ v : Fin 16, LOOKUP_TABLE.get v < 0x80 := by
  decide

theorem lt_of_mem_hexBytes {bytes : List UInt8} : ∀ b ∈ hexBytes bytes, b < 0x80 := by
  intro b hb
  obtain ⟨byte, -, hb⟩ := List.mem_flatMap.mp hb
  simp only [hexDigits, List.mem_cons, List.not_mem_nil, or_false] at hb
  rcases hb with rfl | rfl
  · exact lookup_lt _
  · exact lookup_lt _

theorem isValidUTF8_hexBytes (bytes : List UInt8) :
    ByteArray.IsValidUTF8 ⟨(hexBytes bytes).toArray⟩ := by
  rw [← utf8_map_ofUInt8 lt_of_mem_hexBytes]
  exact isValidUTF8_utf8 _

/-- `bytes_to_hex` -/
def bytesToHex (bytes : List UInt8) : String :=
  String.fromUTF8 ⟨(hexBytes bytes).toArray⟩ (isValidUTF8_hexBytes bytes)

/-! ## Digits -/

/-- `u8::is_ascii_hexdigit` -/
def isAsciiHexdigit (b : UInt8) : Bool :=
  ('0'.toUInt8 ≤ b && b ≤ '9'.toUInt8) || ('a'.toUInt8 ≤ b && b ≤ 'f'.toUInt8) ||
    ('A'.toUInt8 ≤ b && b ≤ 'F'.toUInt8)

/-- `u8::to_ascii_lowercase` -/
def toAsciiLowercase (b : UInt8) : UInt8 :=
  if 'A'.toUInt8 ≤ b ∧ b ≤ 'Z'.toUInt8 then b + 32 else b

/-- The digits are what `hex_val` has a value for. -/
theorem hexVal_isSome (b : UInt8) : (hexVal b).isSome = isAsciiHexdigit b := by
  unfold hexVal isAsciiHexdigit
  split
  · next h => simp [h]
  · split
    · next h => simp [h]
    · split
      · next h => simp [h]
      · next hdigit hlower hupper =>
        simp only [not_and] at hdigit hlower hupper
        simp only [Option.isSome_none, Bool.false_eq, Bool.or_eq_false_iff,
          Bool.and_eq_false_imp, decide_eq_true_eq, decide_eq_false_iff_not]
        exact ⟨⟨hdigit, hlower⟩, hupper⟩

/-- What the table holds, `hex_val` reads. -/
theorem hexVal_lookup : ∀ v : Fin 16, hexVal (LOOKUP_TABLE.get v) = some (UInt8.ofNat v) := by
  decide

private theorem hexVal_ofNat : ∀ n < 256, ∀ v, hexVal (UInt8.ofNat n) = some v →
    ∃ h : v.toNat < 16, LOOKUP_TABLE.get ⟨v.toNat, h⟩ = toAsciiLowercase (UInt8.ofNat n) := by
  have hall : ∀ n < 256, (match hexVal (UInt8.ofNat n) with
      | none => true
      | some v => if h : v.toNat < 16 then
          LOOKUP_TABLE.get ⟨v.toNat, h⟩ == toAsciiLowercase (UInt8.ofNat n) else false) =
        true := by decide +kernel
  intro n hn v hv
  have h := hall n hn
  rw [hv] at h
  simp only at h
  split at h
  · next hlt => exact ⟨hlt, eq_of_beq h⟩
  · simp at h

/-- Under the value of a digit the table holds the digit, in lower case. -/
theorem lookup_hexVal {b v : UInt8} (h : hexVal b = some v) :
    ∃ hlt : v.toNat < 16, LOOKUP_TABLE.get ⟨v.toNat, hlt⟩ = toAsciiLowercase b := by
  rw [← UInt8.ofNat_toNat (x := b)] at h ⊢
  exact hexVal_ofNat b.toNat b.toNat_lt v h

private theorem nibbles_ofNat : ∀ hi < 16, ∀ lo < 16,
    (UInt8.ofNat hi <<< 4 ||| UInt8.ofNat lo) >>> 4 = UInt8.ofNat hi ∧
    (UInt8.ofNat hi <<< 4 ||| UInt8.ofNat lo) &&& 0x0f = UInt8.ofNat lo := by
  decide +kernel

/-- A byte that is put together from two halves falls apart into them. -/
theorem nibbles {hi lo : UInt8} (hhi : hi.toNat < 16) (hlo : lo.toNat < 16) :
    (hi <<< 4 ||| lo) >>> 4 = hi ∧ (hi <<< 4 ||| lo) &&& 0x0f = lo := by
  have h := nibbles_ofNat hi.toNat hhi lo.toNat hlo
  rwa [UInt8.ofNat_toNat, UInt8.ofNat_toNat] at h

private theorem halves_ofNat : ∀ n < 256,
    ((UInt8.ofNat n >>> 4) <<< 4 ||| (UInt8.ofNat n &&& 0x0f)) = UInt8.ofNat n := by
  decide +kernel

/-- A byte is put together from its halves. -/
theorem halves (b : UInt8) : ((b >>> 4) <<< 4 ||| (b &&& 0x0f)) = b := by
  have h := halves_ofNat b.toNat b.toNat_lt
  rwa [UInt8.ofNat_toNat] at h

/-- The digits of a byte that two digits were read as are these two, in lower
case. -/
theorem hexDigits_or {x y hi lo : UInt8} (hx : hexVal x = some hi)
    (hy : hexVal y = some lo) :
    hexDigits (hi <<< 4 ||| lo) = [toAsciiLowercase x, toAsciiLowercase y] := by
  obtain ⟨hhi, hupper⟩ := lookup_hexVal hx
  obtain ⟨hlo, hlower⟩ := lookup_hexVal hy
  obtain ⟨hshift, hand⟩ := nibbles hhi hlo
  simp only [hexDigits, hshift, hand, hupper, hlower]

/-- The digits of a byte have its halves as their values. -/
theorem hexVal_hexDigits (b : UInt8) :
    (hexDigits b).map hexVal = [some (b >>> 4), some (b &&& 0x0f)] := by
  simp only [hexDigits, List.map_cons, List.map_nil, hexVal_lookup, UInt8.ofNat_toNat]

/-! ## The two loops -/

private theorem mOfFn_succ {ε α : Type} {n : Nat} (f : Fin (n + 1) → Except ε α) :
    List.Vector.mOfFn f = (do
      let a ← f 0
      let v ← List.Vector.mOfFn fun i => f i.succ
      pure (a ::ᵥ v)) := rfl

/-- A loop that fills an array succeeds when every round does. -/
theorem mOfFn_eq_ok_iff {ε α : Type} {n : Nat} {f : Fin n → Except ε α}
    {v : List.Vector α n} :
    List.Vector.mOfFn f = .ok v ↔ ∀ i, f i = .ok (v.get i) := by
  induction n with
  | zero =>
      have hv : v = List.Vector.nil := v.eq_nil
      simp [List.Vector.mOfFn, hv, pure, Except.pure]
  | succ n ih =>
      obtain ⟨a, w, rfl⟩ := v.exists_eq_cons
      rw [Fin.forall_fin_succ, mOfFn_succ]
      simp only [List.Vector.get_zero, List.Vector.head_cons, List.Vector.get_cons_succ, ← ih]
      cases f 0 with
      | error e => simp [bind, Except.bind]
      | ok b =>
          cases List.Vector.mOfFn fun i => f i.succ with
          | error e => simp [bind, Except.bind]
          | ok u =>
              show Except.ok (b ::ᵥ u) = .ok (a ::ᵥ w) ↔ _
              rw [Except.ok.injEq, Except.ok.injEq, Except.ok.injEq]
              constructor
              · intro h
                exact ⟨congrArg List.Vector.head h, congrArg List.Vector.tail h⟩
              · rintro ⟨rfl, rfl⟩
                rfl

/-- A list of even length is made of the pairs at its even positions. -/
theorem eq_flatMap_pairs {α : Type} {n : Nat} {items : List α}
    (hlen : items.length = 2 * n) :
    items = (List.finRange n).flatMap fun i : Fin n =>
      [items.get ⟨2 * i, by omega⟩, items.get ⟨2 * i + 1, by omega⟩] := by
  induction n generalizing items with
  | zero => simpa using hlen
  | succ n ih =>
      match items, hlen with
      | a :: b :: rest, hlen =>
          have hrest : rest.length = 2 * n := by
            simp only [List.length_cons] at hlen
            omega
          rw [List.finRange_succ, List.flatMap_cons, List.flatMap_map]
          simpa [Nat.mul_add] using ih hrest

theorem hexRound_eq_ok_iff {bytes : List UInt8} {hlen : bytes.length = 64} {i : Fin 32}
    {b : UInt8} :
    hexRound bytes hlen i = .ok b ↔ ∃ hi lo,
      hexVal (bytes.get ⟨2 * i, by omega⟩) = some hi ∧
      hexVal (bytes.get ⟨2 * i + 1, by omega⟩) = some lo ∧ (hi <<< 4 ||| lo) = b := by
  unfold hexRound hexDigitAt
  cases hexVal (bytes.get ⟨2 * i, by omega⟩) with
  | none => simp [bind, Except.bind]
  | some hi =>
      cases hexVal (bytes.get ⟨2 * i + 1, by omega⟩) with
      | none => simp [bind, Except.bind]
      | some lo => simp [bind, Except.bind]

/-- What `hex_to_32` accepts, and as which key. -/
theorem hexTo32_eq_ok_iff_rounds {s : String} {k : Bytes 32} :
    hexTo32 s = .ok k ↔ ∃ hlen : s.toByteArray.data.toList.length = 64,
      ∀ i, hexRound s.toByteArray.data.toList hlen i = .ok (k.get i) := by
  unfold hexTo32
  simp only
  split
  · next hlen => rw [mOfFn_eq_ok_iff, exists_prop_of_true hlen]
  · next hlen => exact iff_of_false (by simp) fun h => hlen h.1

/-! ## Keys and their texts -/

/-- Lists that are put together from pieces of the same lengths are equal only
piece by piece. -/
theorem flatMap_inj {α β : Type} {f g : α → List β} {items : List α}
    (hlen : ∀ a, (f a).length = (g a).length) (h : items.flatMap f = items.flatMap g) :
    ∀ a ∈ items, f a = g a := by
  induction items with
  | nil => simp
  | cons a items ih =>
      rw [List.flatMap_cons, List.flatMap_cons] at h
      obtain ⟨hfirst, hrest⟩ := List.append_inj h (hlen a)
      rw [List.forall_mem_cons]
      exact ⟨hfirst, ih hrest⟩

theorem hexBytes_eq_flatMap {n : Nat} (k : Bytes n) :
    hexBytes k.toList = (List.finRange n).flatMap fun i => hexDigits (k.get i) := by
  have hk : k.toList = (List.finRange n).map k.get := by
    rw [← List.ofFn_eq_map, ← List.Vector.toList_ofFn, List.Vector.ofFn_get]
  rw [hk, hexBytes, List.flatMap_map]

/-- The text of a key has two digits for each of its bytes. -/
theorem length_hexBytes {n : Nat} (k : Bytes n) : (hexBytes k.toList).length = 2 * n := by
  rw [hexBytes_eq_flatMap]
  simp [hexDigits, Nat.mul_comm]

/-- The bytes that `hex_to_32` looks at in the output of `bytes_to_hex`. -/
theorem toByteArray_bytesToHex (bytes : List UInt8) :
    (bytesToHex bytes).toByteArray.data.toList = hexBytes bytes := rfl

/-- A written key reads back. -/
theorem hexTo32_bytesToHex (k : Bytes 32) : hexTo32 (bytesToHex k.toList) = .ok k := by
  rw [hexTo32_eq_ok_iff_rounds]
  refine ⟨length_hexBytes k, fun i => ?_⟩
  -- the digits at the positions of a round are those of the byte it reads
  have hpairs := (eq_flatMap_pairs (length_hexBytes k)).symm.trans (hexBytes_eq_flatMap k)
  have hround := flatMap_inj (by intro; rfl) hpairs i (List.mem_finRange i)
  have hvalues := congrArg (List.map hexVal) hround
  rw [hexVal_hexDigits, List.map_cons, List.map_cons, List.map_nil, List.cons.injEq,
    List.cons.injEq] at hvalues
  exact hexRound_eq_ok_iff.mpr ⟨_, _, hvalues.1, hvalues.2.1, halves (k.get i)⟩

/-- What the rounds read: digits only, and in lower case they are the text of
the key. -/
theorem digits_of_rounds {bytes : List UInt8} {hlen : bytes.length = 64} {k : Bytes 32}
    (h : ∀ i, hexRound bytes hlen i = .ok (k.get i)) :
    (∀ b ∈ bytes, isAsciiHexdigit b = true) ∧
      hexBytes k.toList = bytes.map toAsciiLowercase := by
  have hpairs := eq_flatMap_pairs (n := 32) hlen
  constructor
  · intro b hb
    rw [hpairs] at hb
    obtain ⟨i, -, hb⟩ := List.mem_flatMap.mp hb
    obtain ⟨hi, lo, hhi, hlo, -⟩ := hexRound_eq_ok_iff.mp (h i)
    simp only [List.mem_cons, List.not_mem_nil, or_false] at hb
    rw [← hexVal_isSome]
    rcases hb with rfl | rfl
    · rw [hhi]
      rfl
    · rw [hlo]
      rfl
  · conv_rhs => rw [hpairs]
    rw [hexBytes_eq_flatMap, List.map_flatMap]
    congr 1
    funext i
    obtain ⟨hi, lo, hhi, hlo, hbyte⟩ := hexRound_eq_ok_iff.mp (h i)
    rw [← hbyte, hexDigits_or hhi hlo]
    rfl

/-- Digits are read. -/
theorem exists_rounds_of_digits {bytes : List UInt8} (hlen : bytes.length = 64)
    (hdigits : ∀ b ∈ bytes, isAsciiHexdigit b = true) :
    ∃ k : Bytes 32, ∀ i, hexRound bytes hlen i = .ok (k.get i) := by
  have hvalue : ∀ pos, ∃ v, hexVal (bytes.get pos) = some v := by
    intro pos
    apply Option.isSome_iff_exists.mp
    rw [hexVal_isSome]
    exact hdigits _ (List.get_mem bytes pos)
  choose value hvalue using hvalue
  refine ⟨List.Vector.ofFn fun i =>
    value ⟨2 * i, by omega⟩ <<< 4 ||| value ⟨2 * i + 1, by omega⟩, fun i => ?_⟩
  rw [List.Vector.get_ofFn]
  exact hexRound_eq_ok_iff.mpr ⟨_, _, hvalue _, hvalue _, rfl⟩

/-! ## Lower case -/

private theorem toLower_ofNat : ∀ n < 0x80,
    (Char.ofUInt8 (UInt8.ofNat n)).toLower =
      Char.ofUInt8 (toAsciiLowercase (UInt8.ofNat n)) ∧
    toAsciiLowercase (UInt8.ofNat n) < 0x80 := by
  decide +kernel

theorem toLower_ofUInt8 {b : UInt8} (hb : b < 0x80) :
    (Char.ofUInt8 b).toLower = Char.ofUInt8 (toAsciiLowercase b) ∧
      toAsciiLowercase b < 0x80 := by
  have h := toLower_ofNat b.toNat (UInt8.lt_iff_toNat_lt.mp hb)
  rwa [UInt8.ofNat_toNat] at h

theorem lt_of_isAsciiHexdigit {b : UInt8} (hb : isAsciiHexdigit b = true) : b < 0x80 := by
  simp only [isAsciiHexdigit, Bool.or_eq_true, Bool.and_eq_true, decide_eq_true_eq] at hb
  rcases hb with (⟨-, hle⟩ | ⟨-, hle⟩) | ⟨-, hle⟩ <;>
    exact UInt8.lt_of_le_of_lt hle (by decide)

/-- A string whose bytes are ASCII, in lower case. -/
theorem toByteArray_toLower {s : String}
    (hascii : ∀ b ∈ s.toByteArray.data.toList, b < 0x80) :
    s.toLower.toByteArray.data.toList =
      s.toByteArray.data.toList.map toAsciiLowercase := by
  generalize hbytes : s.toByteArray.data.toList = bytes at hascii ⊢
  have hs : s = String.ofList (bytes.map Char.ofUInt8) := by
    rw [← String.toByteArray_inj, toByteArray_ofList_eq, utf8_map_ofUInt8 hascii, ← hbytes]
  have hlower : s.toLower.toList = (bytes.map toAsciiLowercase).map Char.ofUInt8 := by
    unfold String.toLower
    rw [String.toList_map, hs, String.toList_ofList, List.map_map, List.map_map]
    apply List.map_congr_left
    intro b hb
    exact (toLower_ofUInt8 (hascii b hb)).1
  rw [toByteArray_eq_utf8, hlower]
  apply utf8_map_ofUInt8
  intro b hb
  obtain ⟨d, hd, rfl⟩ := List.mem_map.mp hb
  exact (toLower_ofUInt8 (hascii d hd)).2

/-- `hex_to_32` reads the strings of 64 digits, and a string as the key whose
text it is in lower case. -/
theorem hexTo32_eq_ok_iff {s : String} {k : Bytes 32} :
    hexTo32 s = .ok k ↔ s.toByteArray.data.toList.length = 64 ∧
      (∀ b ∈ s.toByteArray.data.toList, isAsciiHexdigit b = true) ∧
      bytesToHex k.toList = s.toLower := by
  rw [hexTo32_eq_ok_iff_rounds]
  constructor
  · rintro ⟨hlen, hrounds⟩
    obtain ⟨hdigits, htext⟩ := digits_of_rounds hrounds
    refine ⟨hlen, hdigits, ?_⟩
    rw [← String.toByteArray_inj]
    apply ByteArray.ext
    rw [← Array.toList_inj, toByteArray_bytesToHex, htext,
      toByteArray_toLower fun b hb => lt_of_isAsciiHexdigit (hdigits b hb)]
  · rintro ⟨hlen, hdigits, htext⟩
    obtain ⟨other, hrounds⟩ := exists_rounds_of_digits hlen hdigits
    refine ⟨hlen, fun i => ?_⟩
    -- the key that the rounds read has the same text
    have hother := (digits_of_rounds hrounds).2
    have hsame : bytesToHex other.toList = bytesToHex k.toList := by
      rw [htext, ← String.toByteArray_inj]
      apply ByteArray.ext
      rw [← Array.toList_inj, toByteArray_bytesToHex, hother,
        toByteArray_toLower fun b hb => lt_of_isAsciiHexdigit (hdigits b hb)]
    have hread := hexTo32_bytesToHex other
    rw [hsame, hexTo32_bytesToHex, Except.ok.injEq] at hread
    rw [hread]
    exact hrounds i

/-- Reading and writing keys are inverse to each other: a written key reads
back, exactly the strings of 64 bytes that are all digits are read, and what was
read is written as the string in lower case. -/
theorem hexTo32_bijection :
    (∀ k : Bytes 32, hexTo32 (bytesToHex k.toList) = .ok k) ∧
    ∀ s : String,
      ((∃ k, hexTo32 s = .ok k) ↔ s.toByteArray.data.toList.length = 64 ∧
        ∀ b ∈ s.toByteArray.data.toList, isAsciiHexdigit b = true) ∧
      ∀ k, hexTo32 s = .ok k → bytesToHex k.toList = s.toLower := by
  refine ⟨hexTo32_bytesToHex, fun s => ⟨?_, fun k hk => (hexTo32_eq_ok_iff.mp hk).2.2⟩⟩
  constructor
  · rintro ⟨k, hk⟩
    obtain ⟨hlen, hdigits, -⟩ := hexTo32_eq_ok_iff.mp hk
    exact ⟨hlen, hdigits⟩
  · rintro ⟨hlen, hdigits⟩
    obtain ⟨k, hrounds⟩ := exists_rounds_of_digits hlen hdigits
    exact ⟨k, hexTo32_eq_ok_iff_rounds.mpr ⟨hlen, hrounds⟩⟩

/-- Letters of both cases. -/
def mixedCase : String := "0123456789abcdefABCDEF0123456789abcdefABCDEF0123456789abcdefABCD"

theorem hexTo32_bijection_mixedCase :
    ∃ k, hexTo32 mixedCase = .ok k ∧ bytesToHex k.toList = mixedCase.toLower := by
  obtain ⟨k, hk⟩ := (hexTo32_bijection.2 mixedCase).1.mpr (by decide +kernel)
  exact ⟨k, hk, (hexTo32_bijection.2 mixedCase).2 k hk⟩

end B4n.Cli
