import Mathlib.Data.String.Basic
import Mathlib.Tactic.SplitIfs

/-! The order of texts is that of their bytes in UTF-8. The first byte of a character tells how many
follow and grows with the code point; those that follow are its digits to the base 64. -/
namespace MethodMetadata.Utf8

def trailing (code : Nat) : Nat :=
  if code ≤ 0x7F then 0
  else if code ≤ 0x7FF then 1
  else if code ≤ 0xFFFF then 2
  else 3

/-- What tells, in the first byte, how many bytes follow. -/
def mark : Nat → Nat
  | 0 => 0
  | 1 => 0xC0
  | 2 => 0xE0
  | _ => 0xF0

def lead (code : Nat) : Nat :=
  code / 64 ^ trailing code + mark (trailing code)

/-- The last digits of a code point as bytes, in front of others. -/
def digits (code : Nat) (rest : List UInt8) : Nat → List UInt8
  | 0 => rest
  | count + 1 => UInt8.ofNat (code / 64 ^ count % 64 + 0x80) :: digits code rest count

private theorem ofNat_cons_lt {m n : Nat} {rest rest' : List UInt8} (hm : m < 256) (hn : n < 256)
    (h : m < n ∨ m = n ∧ rest < rest') : UInt8.ofNat m :: rest < UInt8.ofNat n :: rest' := by
  rw [List.cons_lt_cons_iff, UInt8.ofNat_lt_iff_lt hm hn]
  exact h.imp_right fun he => ⟨congrArg UInt8.ofNat he.1, he.2⟩

private theorem digits_lt {code code' count : Nat} (h : code < code')
    (hhigh : code / 64 ^ count = code' / 64 ^ count) (rest rest' : List UInt8) :
    digits code rest count < digits code' rest' count := by
  induction count with
  | zero =>
    rw [Nat.pow_zero, Nat.div_one, Nat.div_one] at hhigh
    omega
  | succ count ih =>
    have hle : code / 64 ^ count ≤ code' / 64 ^ count := Nat.div_le_div_right (Nat.le_of_lt h)
    rw [Nat.pow_succ, ← Nat.div_div_eq_div_mul, ← Nat.div_div_eq_div_mul] at hhigh
    refine ofNat_cons_lt (by omega) (by omega) ?_
    rcases Nat.lt_or_eq_of_le hle with hlt | heq
    · exact .inl (by omega)
    · exact .inr ⟨by rw [heq], ih heq⟩

private theorem lead_lt_or {code code' : Nat} (h : code < code') :
    lead code < lead code' ∨ lead code = lead code' ∧ trailing code = trailing code' ∧
      code / 64 ^ trailing code = code' / 64 ^ trailing code := by
  unfold lead trailing
  split_ifs <;> simp only [mark, true_and] <;> omega

private theorem lead_lt {code : Nat} (h : code < 0x110000) : lead code < 256 := by
  unfold lead trailing
  split_ifs <;> simp only [mark] <;> omega

private theorem code_lt (c : Char) : c.val.toNat < 0x110000 := by
  have h := c.valid
  rw [UInt32.isValidChar, Nat.isValidChar] at h
  omega

private theorem encodeChar_append (c : Char) (rest : List UInt8) :
    String.utf8EncodeChar c ++ rest =
      UInt8.ofNat (lead c.val.toNat) :: digits c.val.toNat rest (trailing c.val.toNat) := by
  have hlt := code_lt c
  unfold String.utf8EncodeChar lead trailing
  generalize c.val.toNat = code at hlt
  dsimp only
  split_ifs
  · simp [digits, mark]
  · have hhigh : code / 64 % 32 = code / 64 := Nat.mod_eq_of_lt (by omega)
    simp [digits, mark, hhigh]
  · have hhigh : code / 4096 % 16 = code / 4096 := Nat.mod_eq_of_lt (by omega)
    simp [digits, mark, hhigh]
  · have hhigh : code / 262144 % 8 = code / 262144 := Nat.mod_eq_of_lt (by omega)
    simp [digits, mark, hhigh]

private theorem encodeChar_append_lt {c d : Char} (h : c < d) (rest rest' : List UInt8) :
    String.utf8EncodeChar c ++ rest < String.utf8EncodeChar d ++ rest' := by
  have hlt : c.val.toNat < d.val.toNat := h
  have hd := code_lt d
  rw [encodeChar_append, encodeChar_append]
  refine ofNat_cons_lt (lead_lt (by omega)) (lead_lt hd) ?_
  refine (lead_lt_or hlt).imp_right fun ⟨hlead, htrailing, hhigh⟩ => ⟨hlead, ?_⟩
  exact htrailing ▸ digits_lt hlt hhigh rest rest'

private theorem flatMap_encodeChar_lt {text text' : List Char} (h : text < text') :
    text.flatMap String.utf8EncodeChar < text'.flatMap String.utf8EncodeChar := by
  induction h with
  | nil =>
    rw [List.flatMap_nil, List.flatMap_cons, encodeChar_append]
    exact .nil
  | rel h => exact encodeChar_append_lt h _ _
  | cons _ ih =>
    rw [List.flatMap_cons, List.flatMap_cons]
    exact List.append_left_lt ih

def bytes (text : String) : List UInt8 :=
  text.toUTF8.data.toList

/-- The bytes of a text tell the text. -/
theorem bytes_injective : Function.Injective bytes := by
  intro text text' h
  exact String.toByteArray_inj.mp (ByteArray.ext (Array.toList_inj.mp h))

private theorem bytes_eq (text : String) :
    bytes text = text.toList.flatMap String.utf8EncodeChar := by
  rw [bytes, String.toUTF8, ← String.utf8Encode_toList, List.utf8Encode,
    List.toList_data_toByteArray]

private theorem bytes_lt {text text' : String} (h : text < text') : bytes text < bytes text' := by
  rw [bytes_eq, bytes_eq]
  exact flatMap_encodeChar_lt (String.lt_iff_toList_lt.mp h)

/-- Texts are ordered as their bytes are. -/
theorem bytes_lt_iff {text text' : String} : bytes text < bytes text' ↔ text < text' := by
  refine ⟨fun h => ?_, bytes_lt⟩
  rcases lt_trichotomy text text' with hlt | rfl | hgt
  · exact hlt
  · exact (List.lt_irrefl _ h).elim
  · exact (List.lt_asymm h (bytes_lt hgt)).elim

end MethodMetadata.Utf8
