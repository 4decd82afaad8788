import Mathlib.Algebra.Group.Nat.Defs

/-!
# UTF-8

Texts as the bytes of their UTF-8.  Every byte of a character outside ASCII is
at least `0x80`, so a byte below that is a character of its own and a text can
be cut at such a byte without decoding it.

## Main results

* `fromUTF8?_utf8` — encoded texts are valid.
* `utf8_map_ofUInt8` — a text in ASCII is its own encoding.
* `not_mem_utf8` — an ASCII character that a text lacks is no byte of it.
-/

namespace B4n.Lib

/-- The UTF-8 of a text. -/
def utf8 (text : List Char) : List UInt8 :=
  text.flatMap String.utf8EncodeChar

@[simp] theorem utf8_nil : utf8 [] = [] := rfl

@[simp] theorem utf8_cons (c : Char) (text : List Char) :
    utf8 (c :: text) = String.utf8EncodeChar c ++ utf8 text := rfl

@[simp] theorem utf8_append (v w : List Char) : utf8 (v ++ w) = utf8 v ++ utf8 w := by
  simp [utf8]

/-- The bytes of a string are the UTF-8 of its characters. -/
theorem toByteArray_eq_utf8 (s : String) : s.toByteArray.data.toList = utf8 s.toList := by
  rw [← String.utf8Encode_toList, List.utf8Encode, List.data_toByteArray]
  rfl

theorem toByteArray_ofList_eq (text : List Char) :
    (String.ofList text).toByteArray = ⟨(utf8 text).toArray⟩ := by
  apply ByteArray.ext
  rw [← Array.toList_inj, toByteArray_eq_utf8, String.toList_ofList]

theorem isValidUTF8_utf8 (text : List Char) :
    ByteArray.IsValidUTF8 ⟨(utf8 text).toArray⟩ :=
  toByteArray_ofList_eq text ▸ (String.ofList text).isValidUTF8

/-- The UTF-8 of a text is decoded to the text. -/
theorem fromUTF8_utf8 (text : List Char) :
    String.fromUTF8 ⟨(utf8 text).toArray⟩ (isValidUTF8_utf8 text) = String.ofList text := by
  rw [← String.toByteArray_inj, toByteArray_ofList_eq]
  rfl

theorem fromUTF8?_utf8 (text : List Char) :
    String.fromUTF8? ⟨(utf8 text).toArray⟩ = some (String.ofList text) := by
  rw [String.fromUTF8?, dif_pos (isValidUTF8_utf8 text), fromUTF8_utf8]

/-! ## ASCII -/

/-- A byte below `0x80` is a character of its own. -/
theorem utf8EncodeChar_ofUInt8 {b : UInt8} (hb : b < 0x80) :
    String.utf8EncodeChar (Char.ofUInt8 b) = [b] := by
  have hle : (Char.ofUInt8 b).val.toNat ≤ 0x7f := by
    show b.toNat ≤ 0x7f
    have hlt := UInt8.lt_iff_toNat_lt.mp hb
    exact Nat.le_of_lt_succ hlt
  unfold String.utf8EncodeChar
  simp only [hle, if_true]
  show [UInt8.ofNat b.toNat] = [b]
  rw [UInt8.ofNat_toNat]

/-- A text in ASCII is its own encoding. -/
theorem utf8_map_ofUInt8 {bytes : List UInt8} (hbytes : ∀ b ∈ bytes, b < 0x80) :
    utf8 (bytes.map Char.ofUInt8) = bytes := by
  induction bytes with
  | nil => rfl
  | cons b bytes ih =>
      have hrest := ih fun d hd => hbytes d (List.mem_cons_of_mem b hd)
      rw [List.map_cons, utf8_cons, utf8EncodeChar_ofUInt8 (hbytes b List.mem_cons_self), hrest]
      rfl

/-- A byte below `0x80` encodes the character that it is. -/
theorem eq_of_mem_utf8EncodeChar {b : UInt8} {c : Char}
    (hmem : b ∈ String.utf8EncodeChar c) (hb : b < 0x80) : c.toNat = b.toNat := by
  have hlt : b.toNat < 0x80 := UInt8.lt_iff_toNat_lt.mp hb
  have htoNat : c.toNat = c.val.toNat := rfl
  simp only [String.utf8EncodeChar] at hmem
  split at hmem
  · simp only [List.mem_singleton] at hmem
    rw [hmem, UInt8.toNat_ofNat']
    omega
  · split at hmem
    · simp only [List.mem_cons, List.not_mem_nil, or_false] at hmem
      rcases hmem with rfl | rfl <;> rw [UInt8.toNat_ofNat'] at hlt <;> omega
    · split at hmem
      · simp only [List.mem_cons, List.not_mem_nil, or_false] at hmem
        rcases hmem with rfl | rfl | rfl <;> rw [UInt8.toNat_ofNat'] at hlt <;> omega
      · simp only [List.mem_cons, List.not_mem_nil, or_false] at hmem
        rcases hmem with rfl | rfl | rfl | rfl <;> rw [UInt8.toNat_ofNat'] at hlt <;> omega

/-- An ASCII character that a text lacks is no byte of it. -/
theorem not_mem_utf8 {b : UInt8} {text : List Char} (hb : b < 0x80)
    (htext : Char.ofUInt8 b ∉ text) : b ∉ utf8 text := by
  intro hmem
  obtain ⟨c, hc, hmem⟩ := List.mem_flatMap.mp hmem
  have hcode := eq_of_mem_utf8EncodeChar hmem hb
  have heq : c = Char.ofUInt8 b := Char.toNat_inj.mp hcode
  exact htext (heq ▸ hc)

end B4n.Lib
