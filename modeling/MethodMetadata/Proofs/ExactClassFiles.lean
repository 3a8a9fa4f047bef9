import MethodMetadata.Proofs.ClassFileCodec
import MethodMetadata.Proofs.ExactFormats

/-! A class file is the bytes that it was read from. Constants keep their tags and the raw bytes of
their texts, and a pool whose count is reached exactly has every constant at the same index. -/
namespace MethodMetadata

open Format

private theorem HandleKind.writesBack : HandleKind.format.WritesBack fun _ => True := by
  intro bytes kind rest h
  obtain ⟨⟨number, left⟩, hr, hkind⟩ := bind_eq_ok_iff.mp h
  have hnumber : kind.number = number ∧ left = rest := by
    dsimp only at hkind
    split at hkind
    next found hf =>
      cases pure_eq_ok_iff.mp hkind
      refine ⟨?_, rfl⟩
      unfold ofNumber? at hf
      split at hf <;> cases hf <;> rfl
    next => cases hkind
  obtain ⟨rfl, rfl⟩ := hnumber
  exact writesBack_byte _ _ _ hr

namespace Format

private theorem writesBack_text : text.WritesBack fun _ => True := by
  intro bytes value rest h
  obtain ⟨⟨length, left⟩, hr, hrest⟩ := bind_eq_ok_iff.mp h
  obtain ⟨⟨block, last⟩, hb, hrest⟩ := bind_eq_ok_iff.mp hrest
  cases pure_eq_ok_iff.mp hrest
  obtain ⟨-, front, hw, rfl⟩ := writesBack_word16 _ _ _ hr
  obtain ⟨hl, rfl⟩ := takeBlock_eq_ok hb
  have hshort : (EncodedText.ofBytes block).bytes.length < 65536 := hl ▸ length.toNat_lt
  have hlength : UInt16.ofNat (EncodedText.ofBytes block).bytes.length = length :=
    (congrArg UInt16.ofNat hl).trans UInt16.ofNat_toNat
  refine ⟨trivial, front ++ block, ?_, (List.append_assoc _ _ _).symm⟩
  simp only [text, if_pos hshort, hlength]
  exact bind_eq_ok_iff.mpr ⟨_, hw, rfl⟩

private theorem writesBack_int32 : int32.WritesBack fun _ => True :=
  (writesBack_word32.imap fun _ _ => rfl).mono fun _ _ => trivial

private theorem writesBack_int64 : int64.WritesBack fun _ => True :=
  (writesBack_word64.imap fun _ _ => rfl).mono fun _ _ => trivial

end Format

namespace Constant

private theorem writesBack_indexPair : indexPair.WritesBack fun _ => True :=
  (writesBack_word16.pair writesBack_word16).mono fun _ _ => trivial

private theorem writesBack_handle : (HandleKind.format.pair word16).WritesBack fun _ => True :=
  (HandleKind.writesBack.pair writesBack_word16).mono fun _ _ => trivial

private theorem fields_read {α : Type} {format : Format α} {pack : α → Constant} {tag : UInt8}
    {bytes rest : List UInt8} {c : Constant} (hb : format.WritesBack fun _ => True)
    (ht : ∀ value, (pack value).tag = tag)
    (hw : ∀ value, (pack value).writeFields = format.write value)
    (h : readFields.fields bytes format pack = .ok (c, rest)) :
    c.tag = tag ∧ ∃ front, c.writeFields = .ok front ∧ bytes = front ++ rest := by
  obtain ⟨⟨value, left⟩, hr, hc⟩ := bind_eq_ok_iff.mp h
  cases pure_eq_ok_iff.mp hc
  obtain ⟨-, front, hfront, rfl⟩ := hb _ _ _ hr
  exact ⟨ht value, front, (hw value).trans hfront, rfl⟩

private theorem readFields_eq_ok {tag : UInt8} {bytes rest : List UInt8} {c : Constant}
    (h : readFields tag bytes = .ok (c, rest)) :
    c.tag = tag ∧ ∃ front, c.writeFields = .ok front ∧ bytes = front ++ rest := by
  unfold readFields at h
  split at h
  case h_1 => exact fields_read writesBack_text (fun _ => rfl) (fun _ => rfl) h
  case h_2 => exact fields_read writesBack_int32 (fun _ => rfl) (fun _ => rfl) h
  case h_3 => exact fields_read writesBack_word32 (fun _ => rfl) (fun _ => rfl) h
  case h_4 => exact fields_read writesBack_int64 (fun _ => rfl) (fun _ => rfl) h
  case h_5 => exact fields_read writesBack_word64 (fun _ => rfl) (fun _ => rfl) h
  case h_12 => exact fields_read writesBack_handle (fun _ => rfl) (fun _ => rfl) h
  -- Constants that refer to one constant, and those that refer to two.
  case h_6 | h_7 | h_13 | h_16 | h_17 =>
    exact fields_read writesBack_word16 (fun _ => rfl) (fun _ => rfl) h
  case h_8 | h_9 | h_10 | h_11 | h_14 | h_15 =>
    exact fields_read writesBack_indexPair (fun _ => rfl) (fun _ => rfl) h
  case h_18 => cases h

/-- Every constant is written as it was read, floats with the same bits. -/
theorem writesBack : Constant.format.WritesBack fun _ => True := by
  intro bytes c rest h
  obtain ⟨⟨tag, left⟩, hr, hfields⟩ := bind_eq_ok_iff.mp h
  obtain ⟨rfl, fields, hf, rfl⟩ := readFields_eq_ok hfields
  obtain ⟨-, front, hw, rfl⟩ := writesBack_byte _ _ _ hr
  have htag : byte.write c.tag = .ok [c.tag] := by
    change Except.ok (toBigEndian 1 c.tag.toNat) = _
    simp [toBigEndian]
  obtain rfl := Except.ok.inj (htag.symm.trans hw)
  exact ⟨trivial, c.tag :: fields, bind_eq_ok_iff.mpr ⟨fields, hf, rfl⟩, rfl⟩

end Constant

namespace ConstantPool

private theorem readOnto_eq_ok {stop steps : Nat} {pool whole : ConstantPool}
    {bytes rest : List UInt8} (h : readOnto stop steps pool bytes = .ok (whole, rest)) :
    ∃ added parts, whole.toList.map (·.2) = pool.toList.map (·.2) ++ added ∧
      List.Forall₂ (fun c part => Constant.format.write c = .ok part) added parts ∧
        bytes = parts.flatten ++ rest := by
  induction steps generalizing pool bytes with
  | zero =>
    cases h
    exact ⟨[], [], (List.append_nil _).symm, .nil, rfl⟩
  | succ steps ih =>
    rw [readOnto] at h
    split at h
    next =>
      cases h
      exact ⟨[], [], (List.append_nil _).symm, .nil, rfl⟩
    next =>
      split at h
      next => cases h
      next c left hr =>
        split at h
        next fits =>
          obtain ⟨-, part, hw, rfl⟩ := Constant.writesBack _ _ _ hr
          obtain ⟨added, parts, ha, hp, rfl⟩ := ih h
          refine ⟨c :: added, part :: parts, ?_, .cons hw hp, ?_⟩
          · rw [ha, toList_push, List.map_append, List.append_assoc]
            rfl
          · rw [List.flatten_cons, List.append_assoc]
        next => cases h

/-- A pool is written as it was read. -/
theorem writesBack : ConstantPool.format.WritesBack fun _ => True := by
  intro bytes pool rest h
  obtain ⟨⟨count, left⟩, hr, hrest⟩ := bind_eq_ok_iff.mp h
  obtain ⟨⟨whole, last⟩, ho, hend⟩ := bind_eq_ok_iff.mp hrest
  obtain ⟨-, front, hw, rfl⟩ := writesBack_word16 _ _ _ hr
  obtain ⟨added, parts, ha, hp, rfl⟩ := readOnto_eq_ok ho
  dsimp only at hend
  split at hend
  next hcount =>
    cases pure_eq_ok_iff.mp hend
    have hindex : pool.nextIndex = count := (congrArg UInt16.ofNat hcount).trans UInt16.ofNat_toNat
    have hbody : Constant.format.writeMany (pool.toList.map (·.2)) = .ok parts.flatten :=
      writeMany_eq_ok_iff.mpr ⟨parts, ha ▸ hp, rfl⟩
    refine ⟨trivial, front ++ parts.flatten, ?_, (List.append_assoc _ _ _).symm⟩
    refine bind_eq_ok_iff.mpr ⟨front, hindex ▸ hw, ?_⟩
    exact bind_eq_ok_iff.mpr ⟨_, hbody, rfl⟩
  next => cases hend

end ConstantPool

private theorem Attribute.writesBack : Attribute.format.WritesBack Attribute.Fits :=
  ((writesBack_word16.pair writesBack_block32).imap fun _ _ => rfl).mono fun _ h => h.2

private theorem ExceptionHandler.writesBack : ExceptionHandler.format.WritesBack fun _ => True :=
  ((writesBack_word16.pair (writesBack_word16.pair (writesBack_word16.pair
    writesBack_word16))).imap fun _ _ => rfl).mono fun _ _ => trivial

theorem CodeAttribute.writesBack :
    CodeAttribute.format.WritesBack fun code => ∀ a ∈ code.attributes, a.Fits :=
  ((writesBack_word16.pair (writesBack_word16.pair (writesBack_block32.pair
    (ExceptionHandler.writesBack.counted.pair Attribute.writesBack.counted)))).imap
      fun _ _ => rfl).mono fun _ h => h.2.2.2.2

private theorem Version.writesBack : Version.format.WritesBack fun _ => True :=
  ((writesBack_word16.pair writesBack_word16).imap fun _ _ => rfl).mono fun _ _ => trivial

private theorem Member.writesBack : Member.format.WritesBack fun m => ∀ a ∈ m.attributes, a.Fits :=
  ((writesBack_word16.pair (writesBack_word16.pair (writesBack_word16.pair
    Attribute.writesBack.counted))).imap fun _ _ => rfl).mono fun _ h => h.2.2.2

namespace ClassFile

private theorem writesBack_magic : magicFormat.WritesBack fun _ => True := by
  intro bytes _ rest h
  simp only [magicFormat] at h
  split at h
  next hm =>
    cases h
    exact ⟨trivial, magic, rfl, by rw [← hm, List.take_append_drop]⟩
  next =>
    split at h <;> cases h

/-- A class file that was read is written as it was. -/
theorem writesBack : ClassFile.format.WritesBack ClassFile.Fits := by
  have hbody : bodyFormat.WritesBack ClassFile.Fits := by
    refine ((Version.writesBack.pair (ConstantPool.writesBack.pair (writesBack_word16.pair
      (writesBack_word16.pair (writesBack_word16.pair (writesBack_word16.counted.pair
        (Member.writesBack.counted.pair (Member.writesBack.counted.pair
          Attribute.writesBack.counted)))))))).imap fun _ _ => rfl).mono ?_
    rintro c ⟨-, -, -, -, -, -, hfields, hmethods, hattributes⟩
    refine ⟨fun m hm => ?_, hattributes⟩
    rcases List.mem_append.mp hm with hm | hm
    · exact hfields m hm
    · exact hmethods m hm
  exact ((writesBack_magic.pair hbody).imap fun _ _ => rfl).mono fun _ h => h.2

/-- The bytes that are parsed as a class file are those that it is written as. Only attributes that
are too long for their lengths can be written and not be read back. -/
theorem parse_iff_toBytes (bytes : List UInt8) (c : ClassFile) :
    ClassFile.parse bytes = .ok c ↔ c.Fits ∧ c.toBytes = .ok bytes := by
  constructor
  · intro h
    obtain ⟨hf, hw⟩ := writesBack.readAll (mapError_eq_ok_iff.mp h)
    exact ⟨hf, mapError_eq_ok_iff.mpr hw⟩
  · rintro ⟨hf, hw⟩
    exact parse_toBytes hf hw

end ClassFile

end MethodMetadata
