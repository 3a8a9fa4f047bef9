import MethodMetadata.ClassFile.Basic
import MethodMetadata.Proofs.ConstantCodec

/-! Class files read back as they were written, as long as the length of every attribute fits
in the four bytes that it is written in. -/
namespace MethodMetadata

open Format

namespace Attribute

/-- The length of the contents fits in four bytes. -/
def Fits (a : Attribute) : Prop :=
  a.info.length < 2 ^ 32

instance (a : Attribute) : Decidable a.Fits :=
  inferInstanceAs (Decidable (_ < _))

private theorem readsBack {a : Attribute} (h : a.Fits) : Attribute.format.ReadsBack a :=
  ReadsBack.imap ((readsBack_word16 _).pair (readsBack_block32 h)) rfl

theorem readsBack_exceptions (classes : List UInt16) : exceptionsFormat.ReadsBack classes :=
  .counted fun c _ => readsBack_word16 c

private theorem length_le_of_write {a : Attribute} {bytes : List UInt8}
    (h : Attribute.format.write a = .ok bytes) : a.info.length ≤ bytes.length := by
  obtain ⟨name, block, -, hb, rfl⟩ := pair_write_eq_ok h
  obtain ⟨length, -, hb⟩ := bind_eq_ok_iff.mp hb
  obtain rfl := pure_eq_ok_iff.mp hb
  simp only [List.length_append]
  omega

end Attribute

private theorem ExceptionHandler.readsBack (handler : ExceptionHandler) :
    ExceptionHandler.format.ReadsBack handler :=
  ReadsBack.imap ((readsBack_word16 _).pair ((readsBack_word16 _).pair
    ((readsBack_word16 _).pair (readsBack_word16 _)))) rfl

private theorem LocalEntry.readsBack (entry : LocalEntry) : LocalEntry.format.ReadsBack entry :=
  ReadsBack.imap ((readsBack_word16 _).pair ((readsBack_word16 _).pair
    ((readsBack_word16 _).pair ((readsBack_word16 _).pair (readsBack_word16 _))))) rfl

theorem LocalEntry.readsBack_table (entries : List LocalEntry) :
    LocalEntry.tableFormat.ReadsBack entries :=
  .counted fun e _ => e.readsBack

theorem LocalEntry.length_write {entry : LocalEntry} {bytes : List UInt8}
    (h : LocalEntry.format.write entry = .ok bytes) : bytes.length = 10 := by
  obtain rfl := Except.ok.inj h
  rfl

namespace CodeAttribute

/-- A body whose lengths fit reads back. -/
theorem readsBack {code : CodeAttribute} (hb : code.bytecode.length < 2 ^ 32)
    (ha : ∀ a ∈ code.attributes, a.Fits) : CodeAttribute.format.ReadsBack code :=
  ReadsBack.imap ((readsBack_word16 _).pair ((readsBack_word16 _).pair
    ((readsBack_block32 hb).pair ((ReadsBack.counted fun h _ => h.readsBack).pair
      (.counted fun a h => Attribute.readsBack (ha a h)))))) rfl

/-- A body that fits has attributes that fit. -/
theorem fits_of_write {code : CodeAttribute} {bytes : List UInt8}
    (h : CodeAttribute.format.write code = .ok bytes) (hl : bytes.length < 2 ^ 32) :
    ∀ a ∈ code.attributes, a.Fits := by
  intro a ha
  obtain ⟨stack, _, -, h1, rfl⟩ := pair_write_eq_ok h
  obtain ⟨slots, _, -, h2, rfl⟩ := pair_write_eq_ok h1
  obtain ⟨bytecode, _, -, h3, rfl⟩ := pair_write_eq_ok h2
  obtain ⟨handlers, attributes, -, h4, rfl⟩ := pair_write_eq_ok h3
  obtain ⟨part, hp, hle⟩ := counted_write_mem h4 ha
  have := Attribute.length_le_of_write hp
  simp only [List.length_append] at hl
  unfold Attribute.Fits
  omega

end CodeAttribute

private theorem Version.readsBack (version : Version) : Version.format.ReadsBack version :=
  ReadsBack.imap ((readsBack_word16 _).pair (readsBack_word16 _)) rfl

private theorem Member.readsBack {m : Member} (h : ∀ a ∈ m.attributes, a.Fits) :
    Member.format.ReadsBack m :=
  ReadsBack.imap ((readsBack_word16 _).pair ((readsBack_word16 _).pair
    ((readsBack_word16 _).pair (.counted fun a ha => Attribute.readsBack (h a ha))))) rfl

private theorem Member.fits_of_write {m : Member} {bytes : List UInt8}
    (h : Member.format.write m = .ok bytes) (hl : bytes.length < 2 ^ 32) :
    ∀ a ∈ m.attributes, a.Fits := by
  intro a ha
  obtain ⟨flags, _, -, h1, rfl⟩ := pair_write_eq_ok h
  obtain ⟨name, _, -, h2, rfl⟩ := pair_write_eq_ok h1
  obtain ⟨descriptor, _, -, h3, rfl⟩ := pair_write_eq_ok h2
  obtain ⟨part, hp, hle⟩ := counted_write_mem h3 ha
  have := Attribute.length_le_of_write hp
  simp only [List.length_append] at hl
  unfold Attribute.Fits
  omega

namespace ClassFile

/-- The lengths of all attributes fit. -/
def Fits (c : ClassFile) : Prop :=
  (∀ m ∈ c.fields ++ c.methods, ∀ a ∈ m.attributes, a.Fits) ∧ ∀ a ∈ c.attributes, a.Fits

instance (c : ClassFile) : Decidable c.Fits :=
  inferInstanceAs (Decidable (_ ∧ _))

private theorem readsBack_magic : magicFormat.ReadsBack () := by
  intro bytes rest h
  obtain rfl := Except.ok.inj h
  rfl

private theorem readsBack {c : ClassFile} (h : c.Fits) : ClassFile.format.ReadsBack c := by
  have hf : ∀ m ∈ c.fields, Member.format.ReadsBack m := fun m hm =>
    Member.readsBack (h.1 m (List.mem_append_left _ hm))
  have hm : ∀ m ∈ c.methods, Member.format.ReadsBack m := fun m hm =>
    Member.readsBack (h.1 m (List.mem_append_right _ hm))
  have hbody : bodyFormat.ReadsBack c :=
    ReadsBack.imap (c.version.readsBack.pair (c.constants.readsBack.pair
      ((readsBack_word16 _).pair ((readsBack_word16 _).pair ((readsBack_word16 _).pair
        ((ReadsBack.counted fun i _ => readsBack_word16 i).pair
          ((ReadsBack.counted hf).pair ((ReadsBack.counted hm).pair
            (.counted fun a ha => Attribute.readsBack (h.2 a ha)))))))))) rfl
  exact ReadsBack.imap (readsBack_magic.pair hbody) rfl

/-- The bytes of a class file are parsed as the class file. -/
theorem parse_toBytes {c : ClassFile} (hf : c.Fits) {bytes : List UInt8}
    (h : c.toBytes = .ok bytes) : ClassFile.parse bytes = .ok c :=
  mapError_eq_ok_iff.mpr ((readsBack hf).readAll (mapError_eq_ok_iff.mp h) _)

/-- The attributes of a class file that is written in few bytes fit. -/
theorem fits_of_toBytes {c : ClassFile} {bytes : List UInt8} (h : c.toBytes = .ok bytes)
    (hl : bytes.length < 2 ^ 32) : c.Fits := by
  obtain ⟨magic, _, -, h1, rfl⟩ := pair_write_eq_ok (mapError_eq_ok_iff.mp h)
  obtain ⟨version, _, -, h2, rfl⟩ := pair_write_eq_ok h1
  obtain ⟨constants, _, -, h3, rfl⟩ := pair_write_eq_ok h2
  obtain ⟨flags, _, -, h4, rfl⟩ := pair_write_eq_ok h3
  obtain ⟨thisClass, _, -, h5, rfl⟩ := pair_write_eq_ok h4
  obtain ⟨superClass, _, -, h6, rfl⟩ := pair_write_eq_ok h5
  obtain ⟨interfaces, _, -, h7, rfl⟩ := pair_write_eq_ok h6
  obtain ⟨fields, _, hfields, h8, rfl⟩ := pair_write_eq_ok h7
  obtain ⟨methods, attributes, hmethods, hattributes, rfl⟩ := pair_write_eq_ok h8
  simp only [List.length_append] at hl
  refine ⟨fun m hm => ?_, fun a ha => ?_⟩
  · rcases List.mem_append.mp hm with hm | hm
    · obtain ⟨part, hp, hle⟩ := counted_write_mem hfields hm
      exact Member.fits_of_write hp (by omega)
    · obtain ⟨part, hp, hle⟩ := counted_write_mem hmethods hm
      exact Member.fits_of_write hp (by omega)
  · obtain ⟨part, hp, hle⟩ := counted_write_mem hattributes ha
    have := Attribute.length_le_of_write hp
    unfold Attribute.Fits
    omega

end ClassFile

end MethodMetadata
