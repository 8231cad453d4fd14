import Mathlib.Data.String.Basic
import ProtoModels.Wire.Record
/-!
# Texts in the order of their bytes

Texts are compared character by character. Their UTF-8 encodings, compared byte by byte, are in the same
order (`utf8_lt_utf8_iff`): the bytes of a smaller character come first whatever follows them, because
the first byte grows with the number of bytes, and encodings of one length differ first where the
characters do.
-/
namespace ProtoModels.Wire

theorem utf8_eq_flatMap (s : String) : utf8 s = s.toList.flatMap String.utf8EncodeChar := by
  rw [utf8, ← String.utf8Encode_toList, List.utf8Encode, List.toList_data_toByteArray]

theorem ofNat_cons_lt_iff {m n : Nat} (hm : m < 256) (hn : n < 256) {as bs : Bytes} :
    UInt8.ofNat m :: as < UInt8.ofNat n :: bs ↔ m < n ∨ m = n ∧ as < bs := by
  rw [List.cons_lt_cons_iff, UInt8.lt_iff_toNat_lt, ← UInt8.toNat_inj, UInt8.toNat_ofNat_of_lt' hm,
    UInt8.toNat_ofNat_of_lt' hn]

/-- Numbers in order differ first, digit by digit to the base 64, where the smaller one has the smaller
digit. -/
theorem digits_lt {m n : Nat} (h : m < n) : m / 262144 < n / 262144 ∨ m / 262144 = n / 262144 ∧
    (m / 4096 % 64 < n / 4096 % 64 ∨ m / 4096 % 64 = n / 4096 % 64 ∧
      (m / 64 % 64 < n / 64 % 64 ∨ m / 64 % 64 = n / 64 % 64 ∧ m % 64 < n % 64)) := by
  have hdigit : ∀ {i j : Nat}, i < j → i / 64 < j / 64 ∨ i / 64 = j / 64 ∧ i % 64 < j % 64 :=
    fun h => by omega
  rcases hdigit h with h64 | h64
  · rcases hdigit h64 with h4096 | h4096
    · rcases hdigit h4096 with h262144 | h262144 <;> omega
    · omega
  · omega

/-- The bytes of a smaller character come first, whatever follows. -/
theorem utf8EncodeChar_append_lt {a b : Char} (h : a < b) (as bs : Bytes) :
    String.utf8EncodeChar a ++ as < String.utf8EncodeChar b ++ bs := by
  have hlt : a.val.toNat < b.val.toNat := h
  have hbound : b.val.toNat < 0x110000 := by
    have hvalid := b.valid
    simp only [UInt32.isValidChar, Nat.isValidChar] at hvalid
    omega
  unfold String.utf8EncodeChar
  dsimp only
  generalize a.val.toNat = v at *
  generalize b.val.toNat = w at *
  by_cases hfour : v ≤ 0xffff
  · split_ifs <;> simp only [List.cons_append, List.nil_append] <;>
      simp (disch := omega) only [ofNat_cons_lt_iff] <;> omega
  · have hv : v / 262144 % 8 = v / 262144 := Nat.mod_eq_of_lt (by omega)
    have hw : w / 262144 % 8 = w / 262144 := Nat.mod_eq_of_lt (by omega)
    rw [if_neg (by omega), if_neg (by omega), if_neg (by omega), if_neg (by omega), if_neg (by omega),
      if_neg (by omega)]
    simp only [List.cons_append, List.nil_append, hv, hw]
    simp (disch := omega) only [ofNat_cons_lt_iff, Nat.add_lt_add_iff_right, Nat.add_right_cancel_iff]
    have hdigits := digits_lt hlt
    tauto

theorem flatMap_utf8EncodeChar_lt {cs ds : List Char} (h : cs < ds) :
    cs.flatMap String.utf8EncodeChar < ds.flatMap String.utf8EncodeChar := by
  induction h with
  | @nil d ds =>
    obtain ⟨byte, bytes, hbytes⟩ := List.exists_cons_of_ne_nil (String.utf8EncodeChar_ne_nil (c := d))
    rw [List.flatMap_cons, hbytes]
    exact List.Lex.nil
  | cons _ ih => exact List.append_left_lt ih
  | rel hlt => exact utf8EncodeChar_append_lt hlt _ _

/-- **The order of texts is that of their bytes.** -/
theorem utf8_lt_utf8_iff {a b : String} : utf8 a < utf8 b ↔ a < b := by
  have hmono : ∀ {a b : String}, a < b → utf8 a < utf8 b := fun h => by
    rw [utf8_eq_flatMap, utf8_eq_flatMap]
    exact flatMap_utf8EncodeChar_lt (String.lt_iff_toList_lt.1 h)
  refine ⟨fun h => ?_, hmono⟩
  rcases lt_trichotomy a b with hlt | rfl | hgt
  · exact hlt
  · exact absurd h (List.lt_irrefl _)
  · exact absurd (hmono hgt) (List.lt_asymm h)

end ProtoModels.Wire
