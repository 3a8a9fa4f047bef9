import MethodMetadata.Editable.LocalVariable
import MethodMetadata.Proofs.Interning

/-! Local variables keep their texts and ranges when they are stored and opened up again. Only
two descriptors, of all texts, make a variable take two slots. -/
namespace MethodMetadata

private theorem wide_letter {c : Char} {type : BaseType} (h : BaseType.ofLetter? c = some type)
    (hw : type.width ≠ 1) : c = 'J' ∨ c = 'D' := by
  unfold BaseType.ofLetter? at h
  split at h <;> cases h <;> simp_all [BaseType.width]

/-- Only the descriptors of long and double stand for values of two slots. -/
theorem FieldType.wide_of_parse {text : String} {type : FieldType}
    (h : FieldType.parse text = .ok type) (hw : type.width ≠ 1) : text = "J" ∨ text = "D" := by
  unfold parse Descriptor.whole at h
  split at h
  · cases h
  next value hr =>
    obtain rfl := Except.ok.inj h
    cases ht : text.toList with
    | nil => rw [ht] at hr; cases hr
    | cons c rest =>
      rw [ht, Descriptor.readField] at hr
      cases hl : BaseType.ofLetter? c with
      | some base =>
        rw [hl] at hr
        obtain ⟨rfl, rfl⟩ := Prod.mk.inj (Except.ok.inj hr)
        rcases wide_letter hl hw with rfl | rfl
        · exact .inl (String.toList_inj.mp ht)
        · exact .inr (String.toList_inj.mp ht)
      | none =>
        -- References take one slot.
        rw [hl] at hr
        dsimp only at hr
        split at hr
        · split at hr
          · obtain ⟨rfl, -⟩ := Prod.mk.inj (Except.ok.inj hr)
            exact absurd rfl hw
          · cases hr
        · cases hr
  · cases h

namespace LocalVariable

/-- The slots of a variable: two for long and double, and one for any other text. -/
theorem width_eq (v : LocalVariable) :
    v.width = if v.descriptor = "J" ∨ v.descriptor = "D" then 2 else 1 := by
  split
  next h => rcases h with h | h <;> rw [width, h] <;> rfl
  next h =>
    unfold width
    split
    next type ht => exact Decidable.not_not.mp fun hw => h (FieldType.wide_of_parse ht hw)
    · rfl

/-- The end of the slots of a variable, or the last slot there is. -/
def reach (v : LocalVariable) : Nat :=
  min 65535 (v.slot.toNat + if v.descriptor = "J" ∨ v.descriptor = "D" then 2 else 1)

theorem slotEnd_toNat (v : LocalVariable) : v.slotEnd.toNat = v.reach := by
  rw [slotEnd, width_eq, UInt16.toNat_ofNat', reach, Nat.mod_eq_of_lt]
  omega

/-- What a stored row opens up to: its texts, and the two ends of its range. -/
theorem ofEntry_eq_ok_iff {pool : ConstantPool} {entry : LocalEntry} {v : LocalVariable} :
    ofEntry pool entry = .ok v ↔ entry.start.toNat + entry.length.toNat ≤ 65535 ∧
      pool.text entry.nameIndex = .ok v.name ∧ pool.text entry.descriptorIndex = .ok v.descriptor ∧
      v.start = entry.start ∧ v.stop = entry.start + entry.length ∧ v.slot = entry.slot := by
  unfold ofEntry
  split
  next hle =>
    simp only [bind_eq_ok_iff, pure_eq_ok_iff]
    constructor
    · rintro ⟨name, hn, descriptor, hd, rfl⟩
      exact ⟨hle, hn, hd, rfl, rfl, rfl⟩
    · rintro ⟨-, hn, hd, hstart, hstop, hslot⟩
      refine ⟨_, hn, _, hd, ?_⟩
      rw [← hstop, ← hstart, ← hslot]
  next hlong => exact ⟨nofun, fun h => absurd h.1 hlong⟩

/-- A stored variable opens up to the variable. -/
theorem settles_toEntry (v : LocalVariable) :
    Interning.Settles v.toEntry fun pool entry => ofEntry pool entry = .ok v := by
  unfold toEntry
  split
  next hle =>
    refine ((ConstantPool.settles_internText v.name).bind fun nameIndex =>
      (ConstantPool.settles_internText v.descriptor).bind fun descriptorIndex =>
        .pure (⟨v.start, v.stop - v.start, nameIndex, descriptorIndex, v.slot⟩ : LocalEntry)).mono ?_
    rintro pool _ ⟨nameIndex, hn, descriptorIndex, hd, rfl⟩
    have hs := v.stop.toNat_lt
    have hlen : (v.stop - v.start).toNat = v.stop.toNat - v.start.toNat :=
      UInt16.toNat_sub_of_le _ _ hle
    have hstop : v.start + (v.stop - v.start) = v.stop := by
      rw [UInt16.add_comm, UInt16.sub_add_cancel]
    have hfits : v.start.toNat + (v.stop - v.start).toNat ≤ 65535 := by
      have := UInt16.le_iff_toNat_le.mp hle
      omega
    exact ofEntry_eq_ok_iff.mpr ⟨hfits, hn, hd, rfl, hstop.symm, rfl⟩
  · exact .throw _ _

end LocalVariable

end MethodMetadata
