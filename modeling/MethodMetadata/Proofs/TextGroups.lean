import Mathlib.Algebra.Group.Nat.Defs
import MethodMetadata.Proofs.ModifiedUtf8

/-! The groups of bytes of modified UTF-8, each spelling a UTF-16 unit. What can be read are the
sequences of groups, and the bytes of a sequence are split into groups in one way only. -/
namespace MethodMetadata.ModifiedUtf8

/-- A group of one to three bytes, by the bits that it carries. -/
inductive Group
  | one (bits : BitVec 7)
  | two (high : BitVec 5) (low : BitVec 6)
  | three (high : BitVec 4) (middle low : BitVec 6)
  deriving DecidableEq

namespace Group

/-- The bytes of a group. The first one tells how many there are. -/
def bytes : Group → List UInt8
  | .one bits => [.ofBitVec (0b0#1 ++ bits)]
  | .two high low => [.ofBitVec (0b110#3 ++ high), .ofBitVec (0b10#2 ++ low)]
  | .three high middle low =>
    [.ofBitVec (0b1110#4 ++ high), .ofBitVec (0b10#2 ++ middle), .ofBitVec (0b10#2 ++ low)]

def unit : Group → UInt16
  | .one bits => .ofBitVec (0#9 ++ bits)
  | .two high low => .ofBitVec (0#5 ++ high ++ low)
  | .three high middle low => .ofBitVec (high ++ middle ++ low)

private theorem toNat_append {n m : Nat} (high : BitVec n) (low : BitVec m) :
    (high ++ low).toNat = high.toNat * 2 ^ m + low.toNat := by
  rw [BitVec.toNat_append, ← Nat.shiftLeft_add_eq_or_of_lt low.isLt, Nat.shiftLeft_eq]

theorem toNat_plain (bits : BitVec 7) :
    (UInt8.ofBitVec (0b0#1 ++ bits)).toNat = bits.toNat :=
  (toNat_append 0b0#1 bits).trans (Nat.zero_add _)

theorem toNat_lead_two (high : BitVec 5) :
    (UInt8.ofBitVec (0b110#3 ++ high)).toNat = 0xC0 + high.toNat :=
  toNat_append 0b110#3 high

theorem toNat_lead_three (high : BitVec 4) :
    (UInt8.ofBitVec (0b1110#4 ++ high)).toNat = 0xE0 + high.toNat :=
  toNat_append 0b1110#4 high

theorem toNat_continuation (bits : BitVec 6) :
    (UInt8.ofBitVec (0b10#2 ++ bits)).toNat = 0x80 + bits.toNat :=
  toNat_append 0b10#2 bits

theorem toNat_unit_one (bits : BitVec 7) : (one bits).unit.toNat = bits.toNat :=
  (toNat_append 0#9 bits).trans (Nat.zero_add _)

theorem toNat_unit_two (high : BitVec 5) (low : BitVec 6) :
    (two high low).unit.toNat = high.toNat * 0x40 + low.toNat := by
  have hhigh : (0#5 ++ high).toNat = high.toNat := (toNat_append 0#5 high).trans (Nat.zero_add _)
  exact (toNat_append (0#5 ++ high) low).trans (by omega)

theorem toNat_unit_three (high : BitVec 4) (middle low : BitVec 6) :
    (three high middle low).unit.toNat =
      high.toNat * 0x1000 + middle.toNat * 0x40 + low.toNat := by
  have hhigh : (high ++ middle).toNat = high.toNat * 0x40 + middle.toNat :=
    toNat_append high middle
  exact (toNat_append (high ++ middle) low).trans (by rw [hhigh]; omega)

end Group

open ModifiedUtf8.Group

/-- A group in front is read as the unit that it spells. -/
theorem unitsOnto_bytes (read : List UInt16) (group : Group) (rest : List UInt8) :
    unitsOnto read (group.bytes ++ rest) = unitsOnto (group.unit :: read) rest := by
  -- Whatever the length of the group, what is read is the number that the unit is.
  have hsame {n : Nat} (hn : n = group.unit.toNat) :
      unitsOnto (UInt16.ofNat n :: read) rest = unitsOnto (group.unit :: read) rest := by
    rw [hn, UInt16.ofNat_toNat]
  cases group with
  | one bits =>
    have hb := bits.isLt
    have hlead := toNat_plain bits
    have hunit := toNat_unit_one bits
    exact (unitsOnto_one (by omega) _ _).trans (hsame (by omega))
  | two high low =>
    have hh := high.isLt
    have hl := low.isLt
    have hlead := toNat_lead_two high
    have hlow := toNat_continuation low
    have hunit := toNat_unit_two high low
    exact (unitsOnto_two (by omega) (by omega) _ _).trans (hsame (by omega))
  | three high middle low =>
    have hh := high.isLt
    have hm := middle.isLt
    have hl := low.isLt
    have hlead := toNat_lead_three high
    have hmiddle := toNat_continuation middle
    have hlow := toNat_continuation low
    have hunit := toNat_unit_three high middle low
    exact (unitsOnto_three (by omega) (by omega) (by omega) _ _).trans (hsame (by omega))

private theorem exists_bits {n m : Nat} (mark : BitVec n) {b : UInt8}
    (hleast : mark.toNat * 2 ^ m ≤ b.toNat) (h : b.toNat < mark.toNat * 2 ^ m + 2 ^ m) :
    ∃ bits : BitVec m, (mark ++ bits).toNat = b.toNat := by
  refine ⟨BitVec.ofNatLT (b.toNat - mark.toNat * 2 ^ m) (by omega), ?_⟩
  rw [toNat_append, BitVec.toNat_ofNatLT]
  omega

private theorem exists_plain {b : UInt8} (h : b < 0x80) :
    ∃ bits : BitVec 7, UInt8.ofBitVec (0b0#1 ++ bits) = b := by
  obtain ⟨bits, hb⟩ := exists_bits (m := 7) 0b0#1 (Nat.zero_le _) (UInt8.lt_iff_toNat_lt.mp h)
  exact ⟨bits, UInt8.toNat_inj.mp hb⟩

private theorem exists_lead_two {b : UInt8} (hleast : ¬b < 0xC0) (h : b < 0xE0) :
    ∃ high : BitVec 5, UInt8.ofBitVec (0b110#3 ++ high) = b := by
  have hl : 0xC0 ≤ b.toNat := by simpa [UInt8.lt_iff_toNat_lt] using hleast
  obtain ⟨high, hb⟩ := exists_bits (m := 5) 0b110#3 hl (UInt8.lt_iff_toNat_lt.mp h)
  exact ⟨high, UInt8.toNat_inj.mp hb⟩

private theorem exists_lead_three {b : UInt8} (hleast : ¬b < 0xE0) (h : b < 0xF0) :
    ∃ high : BitVec 4, UInt8.ofBitVec (0b1110#4 ++ high) = b := by
  have hl : 0xE0 ≤ b.toNat := by simpa [UInt8.lt_iff_toNat_lt] using hleast
  obtain ⟨high, hb⟩ := exists_bits (m := 4) 0b1110#4 hl (UInt8.lt_iff_toNat_lt.mp h)
  exact ⟨high, UInt8.toNat_inj.mp hb⟩

private theorem exists_continuation {b : UInt8} {low : Nat} (h : continuation b = .ok low) :
    ∃ bits : BitVec 6, UInt8.ofBitVec (0b10#2 ++ bits) = b := by
  unfold continuation at h
  split at h
  next hb =>
    obtain ⟨bits, hb⟩ := exists_bits (m := 6) 0b10#2 (UInt8.le_iff_toNat_le.mp hb.1)
      (UInt8.lt_iff_toNat_lt.mp hb.2)
    exact ⟨bits, UInt8.toNat_inj.mp hb⟩
  next => cases h

private theorem exists_groups {read us : List UInt16} {bytes : List UInt8}
    (h : unitsOnto read bytes = .ok us) :
    ∃ groups : List Group, groups.flatMap Group.bytes = bytes := by
  fun_induction unitsOnto read bytes with
  | case1 => exact ⟨[], rfl⟩
  | case2 read lead rest h1 ih =>
    obtain ⟨groups, rfl⟩ := ih h
    obtain ⟨bits, rfl⟩ := exists_plain h1
    exact ⟨.one bits :: groups, rfl⟩
  | case6 read lead _ h2 h3 b rest low hb ih =>
    obtain ⟨groups, rfl⟩ := ih h
    obtain ⟨high, rfl⟩ := exists_lead_two h2 h3
    obtain ⟨bits, rfl⟩ := exists_continuation hb
    exact ⟨.two high bits :: groups, rfl⟩
  | case11 read lead _ _ h3 h4 b middle hb c rest low hc ih =>
    obtain ⟨groups, rfl⟩ := ih h
    obtain ⟨high, rfl⟩ := exists_lead_three h3 h4
    obtain ⟨bits, rfl⟩ := exists_continuation hb
    obtain ⟨bits', rfl⟩ := exists_continuation hc
    exact ⟨.three high bits bits' :: groups, rfl⟩
  | _ => cases h

private theorem unitsOnto_groups (read : List UInt16) (groups : List Group) :
    unitsOnto read (groups.flatMap Group.bytes) = .ok (read.reverse ++ groups.map Group.unit) := by
  induction groups generalizing read with
  | nil => simp [unitsOnto]
  | cons group groups ih =>
    rw [List.flatMap_cons, unitsOnto_bytes, ih]
    simp

/-- Units are read exactly from the groups that spell them. -/
theorem units_eq_ok_iff {bytes : List UInt8} {us : List UInt16} :
    units bytes = .ok us ↔
      ∃ groups : List Group, groups.flatMap Group.bytes = bytes ∧ groups.map Group.unit = us := by
  constructor
  · intro h
    obtain ⟨groups, rfl⟩ := exists_groups h
    rw [units, unitsOnto_groups] at h
    exact ⟨groups, rfl, Except.ok.inj h⟩
  · rintro ⟨groups, rfl, rfl⟩
    exact unitsOnto_groups [] groups

namespace Group

private theorem append_left_inj {n m : Nat} {mark : BitVec n} {bits bits' : BitVec m}
    (h : mark ++ bits = mark ++ bits') : bits = bits' := by
  have hnat := congrArg BitVec.toNat h
  rw [toNat_append, toNat_append] at hnat
  exact BitVec.eq_of_toNat_eq (Nat.add_left_cancel hnat)

private theorem ofBitVec_inj {bits bits' : BitVec 8}
    (h : UInt8.ofBitVec bits = UInt8.ofBitVec bits') : bits = bits' :=
  congrArg UInt8.toBitVec h

private theorem bytes_injective : Function.Injective bytes := by
  intro group group' h
  cases group with
  | one bits =>
    cases group' with
    | one bits' =>
      obtain ⟨hb, -⟩ := List.cons.inj h
      rw [append_left_inj (ofBitVec_inj hb)]
    | two | three => simp [bytes] at h
  | two high low =>
    cases group' with
    | two high' low' =>
      obtain ⟨hb, h⟩ := List.cons.inj h
      obtain ⟨hc, -⟩ := List.cons.inj h
      rw [append_left_inj (ofBitVec_inj hb), append_left_inj (ofBitVec_inj hc)]
    | one | three => simp [bytes] at h
  | three high middle low =>
    cases group' with
    | three high' middle' low' =>
      obtain ⟨hb, h⟩ := List.cons.inj h
      obtain ⟨hc, h⟩ := List.cons.inj h
      obtain ⟨hd, -⟩ := List.cons.inj h
      rw [append_left_inj (ofBitVec_inj hb), append_left_inj (ofBitVec_inj hc),
        append_left_inj (ofBitVec_inj hd)]
    | one | two => simp [bytes] at h

private def following (lead : UInt8) : Nat :=
  if lead.toNat < 0x80 then 0 else if lead.toNat < 0xE0 then 1 else 2

private theorem bytes_cons (group : Group) :
    ∃ lead tail, group.bytes = lead :: tail ∧ tail.length = following lead := by
  cases group with
  | one bits =>
    have hlead := toNat_plain bits
    have hb := bits.isLt
    exact ⟨_, _, rfl, by rw [following, if_pos (by omega)]; rfl⟩
  | two high low =>
    have hlead := toNat_lead_two high
    have hh := high.isLt
    exact ⟨_, _, rfl, by rw [following, if_neg (by omega), if_pos (by omega)]; rfl⟩
  | three high middle low =>
    have hlead := toNat_lead_three high
    exact ⟨_, _, rfl, by rw [following, if_neg (by omega), if_neg (by omega)]; rfl⟩

/-- The first byte of a group tells where it ends. -/
theorem bytes_append_inj {group group' : Group} {rest rest' : List UInt8}
    (h : group.bytes ++ rest = group'.bytes ++ rest') : group = group' ∧ rest = rest' := by
  obtain ⟨lead, tail, hb, hl⟩ := group.bytes_cons
  obtain ⟨lead', tail', hb', hl'⟩ := group'.bytes_cons
  have hlead : lead = lead' := by
    rw [hb, hb'] at h
    exact (List.cons.inj h).1
  have hlength : group.bytes.length = group'.bytes.length := by
    rw [hb, hb', List.length_cons, List.length_cons, hl, hl', hlead]
  obtain ⟨hbytes, hrest⟩ := List.append_inj h hlength
  exact ⟨bytes_injective hbytes, hrest⟩

/-- Bytes are split into groups in one way only. -/
theorem flatMap_bytes_injective : Function.Injective (List.flatMap bytes) := by
  intro groups groups' h
  induction groups generalizing groups' with
  | nil =>
    cases groups' with
    | nil => rfl
    | cons group' groups' =>
      obtain ⟨lead, tail, hb, -⟩ := group'.bytes_cons
      rw [List.flatMap_nil, List.flatMap_cons, hb] at h
      cases h
  | cons group groups ih =>
    cases groups' with
    | nil =>
      obtain ⟨lead, tail, hb, -⟩ := group.bytes_cons
      rw [List.flatMap_nil, List.flatMap_cons, hb] at h
      cases h
    | cons group' groups' =>
      rw [List.flatMap_cons, List.flatMap_cons] at h
      obtain ⟨rfl, hrest⟩ := bytes_append_inj h
      rw [ih hrest]

end Group

end MethodMetadata.ModifiedUtf8
