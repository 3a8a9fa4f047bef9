import Mathlib.Logic.ExistsUnique
import MethodMetadata.Proofs.TextGroups

/-! Bytes that are decoded spell the UTF-16 units of a text, group by group. They are what the text
is encoded as exactly if every group is as short as it can be, and the zero unit takes two bytes. -/
namespace MethodMetadata.ModifiedUtf8

namespace Group

/-- Two bytes for a unit that has room in one, or three for one that has room in two. The zero unit
is no such case, since it takes two bytes. -/
def Overlong : Group → Prop
  | .one _ => False
  | .two high low => 1 ≤ (two high low).unit.toNat ∧ (two high low).unit.toNat ≤ 0x7F
  | .three high middle low => (three high middle low).unit.toNat < 0x800

instance (group : Group) : Decidable group.Overlong :=
  match group with
  | .one _ => inferInstanceAs (Decidable False)
  | .two _ _ => inferInstanceAs (Decidable (_ ∧ _))
  | .three _ _ _ => inferInstanceAs (Decidable (_ < _))

end Group

open ModifiedUtf8.Group

private theorem exists_encodeUnit_eq (unit : UInt16) :
    ∃ group : Group, group.bytes = encodeUnit unit ∧ group.unit = unit := by
  have hread : units (encodeUnit unit) = .ok [unit] := by
    have h := unitsOnto_encodeUnit [] unit []
    rwa [List.append_nil] at h
  obtain ⟨groups, hbytes, hunits⟩ := units_eq_ok_iff.mp hread
  obtain ⟨group, rfl, hunit⟩ := List.map_eq_singleton_iff.mp hunits
  exact ⟨group, by simpa using hbytes, hunit⟩

private theorem length_encodeUnit (unit : UInt16) : (encodeUnit unit).length =
    if 0 < unit.toNat ∧ unit.toNat < 0x80 then 1 else if unit.toNat < 0x800 then 2 else 3 := by
  unfold encodeUnit
  dsimp only
  split
  · rfl
  · split <;> rfl

/-- No group that is written has a zero byte, or starts a group of four. -/
theorem mem_encodeUnit {unit : UInt16} {b : UInt8} (h : b ∈ encodeUnit unit) :
    0 < b.toNat ∧ b.toNat < 0xF0 := by
  have hu : unit.toNat < 0x10000 := unit.toNat_lt
  unfold encodeUnit at h
  dsimp only at h
  split at h
  · rw [List.mem_singleton.mp h, UInt8.toNat_ofNat']
    omega
  · split at h
    all_goals
      simp only [List.mem_cons, List.not_mem_nil, or_false] at h
      rcases h with rfl | h
      · rw [UInt8.toNat_ofNat']
        omega
      · rcases h with rfl | rfl <;> rw [UInt8.toNat_ofNat'] <;> omega

private theorem ofNat_eq {n : Nat} {b : UInt8} (h : b.toNat = n) : UInt8.ofNat n = b := by
  rw [← h, UInt8.ofNat_toNat]

private theorem encodeUnit_unit_of_shortest {group : Group} (hzero : 0 ∉ group.bytes)
    (hlong : ¬group.Overlong) : encodeUnit group.unit = group.bytes := by
  unfold encodeUnit
  dsimp only
  cases group with
  | one bits =>
    have hb := bits.isLt
    have hlead := toNat_plain bits
    have hunit := toNat_unit_one bits
    have hpos : bits.toNat ≠ 0 := by
      intro h
      apply hzero
      rw [Group.bytes, List.mem_singleton, ← UInt8.toNat_inj, hlead, h]
      rfl
    rw [if_pos (by omega), ofNat_eq (hlead.trans hunit.symm)]
    rfl
  | two high low =>
    have hh := high.isLt
    have hl := low.isLt
    have hlead := toNat_lead_two high
    have hlow := toNat_continuation low
    have hunit := toNat_unit_two high low
    rw [Overlong] at hlong
    rw [if_neg (by omega), if_pos (by omega), ofNat_eq (hlead.trans (by omega)),
      ofNat_eq (hlow.trans (by omega))]
    rfl
  | three high middle low =>
    have hh := high.isLt
    have hm := middle.isLt
    have hl := low.isLt
    have hlead := toNat_lead_three high
    have hmiddle := toNat_continuation middle
    have hlow := toNat_continuation low
    have hunit := toNat_unit_three high middle low
    rw [Overlong] at hlong
    rw [if_neg (by omega), if_neg hlong, ofNat_eq (hlead.trans (by omega)),
      ofNat_eq (hmiddle.trans (by omega)), ofNat_eq (hlow.trans (by omega))]
    rfl

/-- The unit of a group is written as the group exactly if the group has no zero byte and is not
overlong. -/
theorem encodeUnit_unit_eq_iff (group : Group) :
    encodeUnit group.unit = group.bytes ↔ 0 ∉ group.bytes ∧ ¬group.Overlong := by
  constructor
  · intro h
    refine ⟨fun hzero => ?_, fun hlong => ?_⟩
    · rw [← h] at hzero
      exact absurd (mem_encodeUnit hzero).1 (Nat.lt_irrefl 0)
    · have hlength := length_encodeUnit group.unit
      rw [h] at hlength
      cases group with
      | one bits => exact hlong
      | two high low =>
        rw [Overlong] at hlong
        rw [if_pos (by omega)] at hlength
        cases hlength
      | three high middle low =>
        rw [Overlong] at hlong
        rw [if_pos hlong] at hlength
        split at hlength <;> cases hlength
  · rintro ⟨hzero, hlong⟩
    exact encodeUnit_unit_of_shortest hzero hlong

/-- The units of groups are written as the groups exactly if each of them is. -/
theorem flatMap_encodeUnit_eq_iff (groups : List Group) :
    (groups.map Group.unit).flatMap encodeUnit = groups.flatMap Group.bytes ↔
      ∀ group ∈ groups, encodeUnit group.unit = group.bytes := by
  induction groups with
  | nil => simp
  | cons group groups ih =>
    rw [List.map_cons, List.flatMap_cons, List.flatMap_cons, List.forall_mem_cons, ← ih]
    constructor
    · intro h
      obtain ⟨written, hw, -⟩ := exists_encodeUnit_eq group.unit
      rw [← hw] at h
      obtain ⟨rfl, hrest⟩ := bytes_append_inj h
      exact ⟨hw.symm, hrest⟩
    · rintro ⟨hgroup, hrest⟩
      rw [hgroup, hrest]

/-- Bytes that are groups, and a text that the units of the groups are joined to. -/
structure Spells (groups : List Group) (bytes : List UInt8) (text : String) : Prop where
  bytes : groups.flatMap Group.bytes = bytes
  units : groups.map Group.unit = Utf16.encode text.toList

private theorem Spells.unique {groups groups' : List Group} {bytes : List UInt8}
    {text text' : String}
    (h : Spells groups bytes text) (h' : Spells groups' bytes text') : groups = groups' :=
  flatMap_bytes_injective (h.bytes.trans h'.bytes.symm)

private theorem decodeGroups_eq_ok_iff {bytes : List UInt8} {text : String} :
    decodeGroups bytes = .ok text ↔
      ∃ us, units bytes = .ok us ∧ Utf16.decode us = some text.toList := by
  unfold decodeGroups
  cases units bytes with
  | error e => simp
  | ok us =>
    simp only [Except.ok.injEq, exists_eq_left']
    cases Utf16.decode us with
    | none => simp
    | some found => simp [← String.toList_inj]

private theorem decode_eq_ok_iff {bytes : List UInt8} {text : String} :
    decode bytes = .ok text ↔ ∃ groups, Spells groups bytes text := by
  rw [decode_eq_decodeGroups, decodeGroups_eq_ok_iff]
  simp only [units_eq_ok_iff, Utf16.decode_eq_some_iff]
  constructor
  · rintro ⟨us, ⟨groups, hb, rfl⟩, hu⟩
    exact ⟨groups, hb, hu.symm⟩
  · rintro ⟨groups, hb, hu⟩
    exact ⟨_, ⟨groups, hb, rfl⟩, hu.symm⟩

private theorem Spells.encode_eq_iff {groups : List Group} {bytes : List UInt8} {text : String}
    (h : Spells groups bytes text) :
    encode text = bytes ↔ 0 ∉ bytes ∧ ∀ group ∈ groups, ¬group.Overlong := by
  rw [encode, ← h.units, ← h.bytes, flatMap_encodeUnit_eq_iff]
  simp only [encodeUnit_unit_eq_iff, List.mem_flatMap, not_exists, not_and]
  exact ⟨fun hall => ⟨fun group hg => (hall group hg).1, fun group hg => (hall group hg).2⟩,
    fun hall group hg => ⟨hall.1 group hg, hall.2 group hg⟩⟩

/-- Bytes are decoded exactly if they are groups that spell the units of a text, and whether all of
them are below 0x80 makes no difference. The text is encoded as the bytes again exactly if there is
no zero byte and no group is overlong. -/
theorem decode_iff_groups (bytes : List UInt8) :
    decode bytes = decodeGroups bytes ∧
      (∀ text, decode bytes = .ok text ↔ ∃! groups, Spells groups bytes text) ∧
      ∀ text groups, Spells groups bytes text →
        (encode text = bytes ↔ 0 ∉ bytes ∧ ∀ group ∈ groups, ¬group.Overlong) := by
  refine ⟨decode_eq_decodeGroups bytes, fun text => ?_, fun text groups h => h.encode_eq_iff⟩
  rw [decode_eq_ok_iff]
  constructor
  · rintro ⟨groups, h⟩
    exact ⟨groups, h, fun _ h' => h'.unique h⟩
  · rintro ⟨groups, h, -⟩
    exact ⟨groups, h⟩

/-- A letter in two bytes, and a surrogate pair. -/
theorem decode_iff_groups_overlong :
    let groups := [.two 1 1, .three 13 32 61, .three 13 56 0]
    let bytes := [0xC1, 0x81, 0xED, 0xA0, 0xBD, 0xED, 0xB8, 0x80]
    Spells groups bytes "A😀" ∧ decode bytes = .ok "A😀" ∧ encode "A😀" ≠ bytes := by
  intro groups bytes
  have hs : Spells groups bytes "A😀" := by constructor <;> decide +kernel
  obtain ⟨-, hdecode, hencode⟩ := decode_iff_groups bytes
  refine ⟨hs, (hdecode _).mpr ⟨groups, hs, fun _ h => h.unique hs⟩, fun h => ?_⟩
  have hlong := ((hencode _ groups hs).mp h).2 (.two 1 1) List.mem_cons_self
  exact hlong (by decide)

end MethodMetadata.ModifiedUtf8
