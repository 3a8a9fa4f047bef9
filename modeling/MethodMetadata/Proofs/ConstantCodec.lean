import MethodMetadata.ClassFile.ConstantPool
import MethodMetadata.Proofs.Formats
import MethodMetadata.Proofs.PoolGrowth

/-! Constants and whole pools read back as they were written. The widths of constants decide
their indices, so a pool is the sequence of its constants. -/
namespace MethodMetadata

open Format

private theorem HandleKind.readsBack (kind : HandleKind) : HandleKind.format.ReadsBack kind := by
  intro bytes rest h
  refine bind_eq_ok_iff.mpr ⟨_, readsBack_byte kind.number _ _ h, ?_⟩
  cases kind <;> rfl

namespace Format

private theorem readsBack_int32 (n : Int32) : int32.ReadsBack n :=
  (readsBack_word32 n.toUInt32).imap rfl

private theorem readsBack_int64 (n : Int64) : int64.ReadsBack n :=
  (readsBack_word64 n.toUInt64).imap rfl

private theorem readsBack_text (value : EncodedText) : text.ReadsBack value := by
  intro bytes rest h
  by_cases hl : value.bytes.length < 65536
  · simp only [text, hl, if_true] at h
    obtain ⟨length, hw, h⟩ := bind_eq_ok_iff.mp h
    obtain rfl := pure_eq_ok_iff.mp h
    have hn : (UInt16.ofNat value.bytes.length).toNat = value.bytes.length := by
      rw [UInt16.toNat_ofNat', Nat.mod_eq_of_lt hl]
    rw [List.append_assoc]
    refine bind_eq_ok_iff.mpr ⟨_, readsBack_word16 _ _ _ hw, ?_⟩
    refine bind_eq_ok_iff.mpr ⟨(value.bytes, rest), ?_, ?_⟩
    · simp only [hn]
      exact takeBlock_append value.bytes rest
    · exact congrArg (fun v => Except.ok (v, rest)) (EncodedText.ext_bytes rfl)
  · simp only [text, hl, if_false] at h
    cases h

private theorem text_write_eq_error_iff {value : EncodedText} {e : Fault} :
    text.write value = .error e ↔ e = .textTooLong ∧ 65535 < value.bytes.length := by
  by_cases hl : value.bytes.length < 65536
  · have hwrite : text.write value =
        .ok (toBigEndian 2 (UInt16.ofNat value.bytes.length).toNat ++ value.bytes) := if_pos hl
    simp only [hwrite, reduceCtorEq, false_iff]
    omega
  · have hwrite : text.write value = .error .textTooLong := if_neg hl
    have hlong : 65535 < value.bytes.length := by omega
    simp [hwrite, hlong, eq_comm]

end Format

namespace Constant

private theorem fields_written {α : Type} (pack : α → Constant) {format : Format α} {value : α}
    {bytes : List UInt8} (hb : format.ReadsBack value) (h : format.write value = .ok bytes)
    (rest : List UInt8) :
    readFields.fields (bytes ++ rest) format pack = .ok (pack value, rest) :=
  bind_eq_ok_iff.mpr ⟨_, hb _ _ h, rfl⟩

private theorem readsBack_indexPair (pair : UInt16 × UInt16) : indexPair.ReadsBack pair :=
  (readsBack_word16 _).pair (readsBack_word16 _)

private theorem readsBack_handle (pair : HandleKind × UInt16) :
    (HandleKind.format.pair word16).ReadsBack pair :=
  pair.1.readsBack.pair (readsBack_word16 _)

private theorem readFields_written {c : Constant} {bytes : List UInt8}
    (h : c.writeFields = .ok bytes) (rest : List UInt8) :
    readFields c.tag (bytes ++ rest) = .ok (c, rest) := by
  cases c with
  | utf8 value => exact fields_written .utf8 (readsBack_text value) h rest
  | integer value => exact fields_written .integer (readsBack_int32 value) h rest
  | float bits => exact fields_written .float (readsBack_word32 bits) h rest
  | long value => exact fields_written .long (readsBack_int64 value) h rest
  | double bits => exact fields_written .double (readsBack_word64 bits) h rest
  | classRef name => exact fields_written .classRef (readsBack_word16 name) h rest
  | string value => exact fields_written .string (readsBack_word16 value) h rest
  | fieldRef owner member =>
    exact fields_written (fun p => .fieldRef p.1 p.2) (readsBack_indexPair _) h rest
  | methodRef owner member onInterface =>
    cases onInterface with
    | false =>
      exact fields_written (fun p => .methodRef p.1 p.2 false) (readsBack_indexPair _) h rest
    | true => exact fields_written (fun p => .methodRef p.1 p.2 true) (readsBack_indexPair _) h rest
  | nameAndType name descriptor =>
    exact fields_written (fun p => .nameAndType p.1 p.2) (readsBack_indexPair _) h rest
  | methodHandle kind member =>
    exact fields_written (fun p => .methodHandle p.1 p.2) (readsBack_handle _) h rest
  | methodType descriptor => exact fields_written .methodType (readsBack_word16 descriptor) h rest
  | dynamic bootstrap member =>
    exact fields_written (fun p => .dynamic p.1 p.2) (readsBack_indexPair _) h rest
  | invokeDynamic bootstrap member =>
    exact fields_written (fun p => .invokeDynamic p.1 p.2) (readsBack_indexPair _) h rest
  | module name => exact fields_written .module (readsBack_word16 name) h rest
  | package name => exact fields_written .package (readsBack_word16 name) h rest

/-- Every constant reads back as it was written, floats with the same bits. -/
theorem readsBack (c : Constant) : Constant.format.ReadsBack c := by
  intro bytes rest h
  obtain ⟨fields, hf, h⟩ := bind_eq_ok_iff.mp h
  obtain rfl := pure_eq_ok_iff.mp h
  have hw : byte.write c.tag = .ok [c.tag] := by
    change Except.ok (toBigEndian 1 c.tag.toNat) = _
    simp [toBigEndian]
  exact bind_eq_ok_iff.mpr ⟨_, readsBack_byte c.tag _ (fields ++ rest) hw,
    readFields_written hf rest⟩

/-- The only constants that cannot be written are texts that are too long. -/
theorem write_eq_error_iff {c : Constant} {e : Fault} : Constant.format.write c = .error e ↔
    e = .textTooLong ∧ ∃ value, c = .utf8 value ∧ 65535 < value.bytes.length := by
  have hwrite : Constant.format.write c = .error e ↔ c.writeFields = .error e := by
    simp [Constant.format, bind_eq_error_iff, pure, Except.pure]
  rw [hwrite]
  cases c with
  | utf8 value => simp [writeFields, text_write_eq_error_iff]
  | _ => exact ⟨nofun, nofun⟩

end Constant

namespace ConstantPool

private theorem readOnto_written {pool whole : ConstantPool} {added : List (Nat × Constant)}
    {parts : List (List UInt8)}
    (hp : List.Forall₂ (fun c part => Constant.format.write c = .ok part) (added.map (·.2)) parts)
    (hw : whole.toList = pool.toList ++ added) {steps : Nat} (hs : added.length ≤ steps)
    (rest : List UInt8) :
    readOnto whole.constants.next steps pool (parts.flatten ++ rest) = .ok (whole, rest) := by
  induction added generalizing pool parts steps with
  | nil =>
    obtain rfl : whole = pool := ext_toList (hw.trans (List.append_nil _))
    cases hp
    cases steps <;> simp [readOnto]
  | cons e added ih =>
    obtain ⟨index, c⟩ := e
    rcases hp with _ | ⟨hc, hp⟩
    obtain ⟨steps, rfl⟩ : ∃ n, steps = n + 1 := ⟨steps - 1, by rw [List.length_cons] at hs; omega⟩
    -- The next constant lies where the pool ends, since both lay out the same constants so far.
    have hl : LaidOut 1 (pool.toList ++ (index, c) :: added) whole.constants.next := by
      rw [← hw, ← whole.start_eq]
      exact whole.constants.laidOut
    obtain ⟨middle, hbefore, hindex, hafter⟩ := hl.append_inv
    obtain rfl : middle = pool.constants.next := by
      have := pool.constants.laidOut
      rw [pool.start_eq] at this
      exact hbefore.next_eq this
    obtain rfl : index = pool.constants.next := hindex
    have hend : pool.constants.next + c.width ≤ whole.constants.next := hafter.start_le
    have fits : pool.Fits c := Nat.le_trans hend whole.next_le
    have hlt : ¬whole.constants.next ≤ pool.constants.next := by
      have := c.one_le_width
      omega
    rw [List.flatten_cons, List.append_assoc, readOnto, if_neg hlt, c.readsBack _ _ hc]
    simp only [dif_pos fits]
    refine ih hp ?_ (Nat.le_of_succ_le_succ hs)
    rw [hw, toList_push, List.append_assoc, List.singleton_append]

/-- A pool reads back as it was written, every constant at its index. -/
theorem readsBack (pool : ConstantPool) : ConstantPool.format.ReadsBack pool := by
  intro bytes rest h
  obtain ⟨count, hc, h⟩ := bind_eq_ok_iff.mp h
  obtain ⟨body, hb, h⟩ := bind_eq_ok_iff.mp h
  obtain ⟨parts, hp, rfl⟩ := writeMany_eq_ok_iff.mp hb
  obtain rfl := pure_eq_ok_iff.mp h
  have hn := pool.nextIndex_toNat
  have hlength : pool.toList.length ≤ pool.constants.next := by
    have := pool.constants.laidOut.length_le pool.spaced
    rw [toList]
    omega
  have hread : readOnto pool.constants.next pool.constants.next empty (parts.flatten ++ rest) =
      .ok (pool, rest) := readOnto_written hp rfl hlength rest
  rw [List.append_assoc]
  refine bind_eq_ok_iff.mpr ⟨_, readsBack_word16 _ _ _ hc, ?_⟩
  refine bind_eq_ok_iff.mpr ⟨(pool, rest), ?_, ?_⟩
  · simp only [hn]
    exact hread
  · simp only [hn, if_true]
    rfl

/-- A pool cannot be written exactly if one of its texts is too long. -/
theorem write_eq_error_iff {pool : ConstantPool} {e : Fault} :
    ConstantPool.format.write pool = .error e ↔ e = .textTooLong ∧
      ∃ index value, pool.get index = .ok (.utf8 value) ∧ 65535 < value.bytes.length := by
  have hmany : ConstantPool.format.write pool = .error e ↔
      (pool.toList.map (·.2)).mapM Constant.format.write = .error e := by
    have hcount : word16.write pool.nextIndex = .ok (toBigEndian 2 pool.nextIndex.toNat) := rfl
    simp [ConstantPool.format, hcount, writeMany, bind_eq_error_iff, pure, Except.pure, toList]
  have honly : ∀ c ∈ pool.toList.map (·.2), ∀ e, Constant.format.write c = .error e →
      e = .textTooLong := fun c _ e h => (Constant.write_eq_error_iff.mp h).1
  rw [hmany, mapM_eq_error_iff honly]
  constructor
  · rintro ⟨c, hc, hw⟩
    obtain ⟨rfl, value, rfl, hlong⟩ := Constant.write_eq_error_iff.mp hw
    obtain ⟨entry, hentry, hvalue⟩ := List.mem_map.mp hc
    refine ⟨rfl, UInt16.ofNat entry.1, value, ?_, hlong⟩
    rw [get_eq_ok_iff, index_toNat hentry, ← hvalue]
    exact hentry
  · rintro ⟨rfl, index, value, hget, hlong⟩
    refine ⟨.utf8 value, List.mem_map.mpr ⟨_, get_eq_ok_iff.mp hget, rfl⟩, ?_⟩
    exact Constant.write_eq_error_iff.mpr ⟨rfl, value, rfl, hlong⟩

end ConstantPool

end MethodMetadata
