import MethodMetadata.Proofs.ExactClassFiles
import MethodMetadata.Proofs.PoolHistories
import MethodMetadata.Proofs.Readers

/-! The numbers of a pool fit in the two bytes that they are written in: its count, the lengths of
its texts, and the index where there is no room for one more constant. -/
namespace MethodMetadata

open Format Interning

namespace Constant

/-- What can be wrong with the bytes of a single constant. -/
inductive Unreadable : Fault → Prop
  | ended : Unreadable .endOfInput
  | short (expected found : Nat) : Unreadable (.shortBlock expected found)
  | tag (tag : UInt8) : Unreadable (.unknownTag tag)
  | handleKind (number : UInt8) : Unreadable (.unknownHandleKind number)

/-- A reader that finds nothing else wrong. -/
def FailsUnreadable ⦃α : Type⦄ (read : Reader α) : Prop :=
  ∀ ⦃bytes fault⦄, read bytes = .error fault → Unreadable fault

private theorem failsUnreadable_error {α : Type} {fault : Fault} (h : Unreadable fault) :
    FailsUnreadable fun _ => (.error fault : Except _ (α × _)) := by
  intro bytes found he
  cases he
  exact h

private theorem compositional_failsUnreadable : Compositional FailsUnreadable where
  pure _ := nofun
  bind hf hs := by
    intro bytes fault h
    rcases bind_eq_error_iff.mp h with h | ⟨taken, -, h⟩
    · exact hf h
    · exact hs taken.1 h
  bigEndian width := by
    intro bytes fault h
    simp only [bigEndian] at h
    split at h <;> cases h
    exact .ended
  takeBlock length := by
    intro bytes fault h
    unfold takeBlock at h
    dsimp only at h
    split at h <;> cases h
    exact .short _ _
  unknownTag tag := failsUnreadable_error (.tag tag)
  unknownHandleKind number := failsUnreadable_error (.handleKind number)

end Constant

namespace ConstantPool

variable {pool grown : ConstantPool}

/-- The next index is one more than the widths of all constants. -/
theorem next_eq_sum (pool : ConstantPool) :
    pool.constants.next = 1 + (pool.toList.map fun e => e.2.width).sum := by
  have h := pool.constants.laidOut.next_eq_sum
  rwa [pool.start_eq] at h

private theorem count_of_write {bytes : List UInt8}
    (h : ConstantPool.format.write pool = .ok bytes) :
    ofBigEndian (bytes.take 2) = pool.constants.next := by
  obtain ⟨count, hc, h⟩ := bind_eq_ok_iff.mp h
  obtain ⟨body, -, h⟩ := bind_eq_ok_iff.mp h
  obtain rfl := pure_eq_ok_iff.mp h
  obtain rfl := Except.ok.inj hc
  have hnext : pool.nextIndex.toNat < 256 ^ 2 := pool.nextIndex.toNat_lt
  rw [List.take_left' (length_toBigEndian 2 _), ofBigEndian_toBigEndian, Nat.mod_eq_of_lt hnext,
    nextIndex_toNat]

/-- A text has no more characters than its length in two bytes can tell. -/
theorem length_le_of_text {bytes : List UInt8} (hw : ConstantPool.format.write pool = .ok bytes)
    {index : UInt16} {text : String} (h : pool.text index = .ok text) :
    text.toList.length ≤ 65535 := by
  obtain ⟨encoded, hg, hd⟩ := text_eq_ok_iff.mp h
  have hshort : encoded.bytes.length ≤ 65535 := by
    by_contra hlong
    have herror := write_eq_error_iff.mpr
      ⟨rfl, index, encoded, hg, Nat.lt_of_not_le hlong⟩
    cases hw.symm.trans herror
  rw [encoded.decoded_eq] at hd
  exact Nat.le_trans (ModifiedUtf8.length_le_of_decode hd) hshort

/-- The error of a constant that there is no room for, with the index that it would have got. -/
def NoRoom (pool : ConstantPool) (e : ClassFileError) : Prop :=
  ∃ overflow, e = .poolOverflow overflow ∧ overflow.offset.toNat = pool.constants.next ∧
    ¬pool.Fits overflow.constant

private theorem add_run_eq_ok {c : Constant} {index : UInt16}
    (h : (add c).run.run pool = (.ok index, grown)) : index.toNat = pool.constants.next := by
  by_cases fits : pool.Fits c
  · have hadd : (add c).run.run pool = (.ok pool.nextIndex, pool.push c fits) := dif_pos fits
    cases h.symm.trans hadd
    exact pool.nextIndex_toNat
  · have hadd : (add c).run.run pool = (.error (.poolOverflow ⟨c, pool.nextIndex⟩), pool) :=
      dif_neg fits
    cases h.symm.trans hadd

/-- What a pool is read from, up to a constant that there is no room for. -/
structure OverflowsAt (bytes : List UInt8) (pool : ConstantPool) (overflow : PoolOverflow) :
    Prop where
  front : ∃ parts rest left,
    List.Forall₂ (fun c part => Constant.format.write c = .ok part) (pool.toList.map (·.2)) parts ∧
      bytes = parts.flatten ++ rest ∧ Constant.format.read rest = .ok (overflow.constant, left)
  offset : overflow.offset.toNat = pool.constants.next
  full : ¬pool.Fits overflow.constant

private theorem readOnto_overflow {stop steps : Nat} {whole bytes : List UInt8}
    {parts : List (List UInt8)} {overflow : PoolOverflow}
    (hparts : List.Forall₂ (fun c part => Constant.format.write c = .ok part)
      (pool.toList.map (·.2)) parts) (hwhole : whole = parts.flatten ++ bytes)
    (h : readOnto stop steps pool bytes = .error (.poolOverflow overflow)) :
    ∃ reached, OverflowsAt whole reached overflow := by
  induction steps generalizing pool bytes parts with
  | zero => cases h
  | succ steps ih =>
    rw [readOnto] at h
    split at h
    next => cases h
    next =>
      split at h
      next fault hr =>
        cases h
        cases Constant.compositional_failsUnreadable.constant hr
      next c left hr =>
        split at h
        next fits =>
          obtain ⟨-, part, hw, rfl⟩ := Constant.writesBack _ _ _ hr
          have hpushed : List.Forall₂ (fun c part => Constant.format.write c = .ok part)
              ((pool.push c fits).toList.map (·.2)) (parts ++ [part]) := by
            rw [toList_push, List.map_append]
            exact List.rel_append hparts (.cons hw .nil)
          refine ih hpushed ?_ h
          rw [hwhole, List.flatten_append, List.flatten_singleton, List.append_assoc]
        next full =>
          cases h
          exact ⟨pool, ⟨parts, bytes, left, hparts, hwhole, hr⟩, pool.nextIndex_toNat, full⟩

/-- A pool that cannot be read for lack of room is full of the constants in front. -/
theorem overflowsAt_of_read {bytes : List UInt8} {overflow : PoolOverflow}
    (h : ConstantPool.format.read bytes = .error (.poolOverflow overflow)) :
    ∃ reached, OverflowsAt (bytes.drop 2) reached overflow := by
  rcases bind_eq_error_iff.mp h with hcount | ⟨⟨count, left⟩, hcount, hrest⟩
  · cases Constant.compositional_failsUnreadable.word16 hcount
  · obtain ⟨-, front, hw, rfl⟩ := writesBack_word16 _ _ _ hcount
    obtain rfl := Except.ok.inj hw
    rw [List.drop_left' (length_toBigEndian 2 _)]
    dsimp only at hrest
    rcases bind_eq_error_iff.mp hrest with honto | ⟨⟨whole, last⟩, -, hend⟩
    · exact readOnto_overflow .nil rfl honto
    · dsimp only at hend
      split at hend <;> cases hend

end ConstantPool

namespace Interning

open ConstantPool

variable {α β : Type}

/-- A step that fails only for a constant that there is no room for. -/
def FailsFull (act : Interning α) : Prop :=
  ∀ ⦃pool e grown⦄, act.run.run pool = (.error e, grown) → grown.NoRoom e

namespace FailsFull

theorem pure (a : α) : FailsFull (Pure.pure a) := by
  intro pool e grown h
  cases congrArg Prod.fst h

/-- A step behind another one may rely on what that one gives. -/
theorem bind {act : Interning α} {f : α → Interning β} (ha : FailsFull act)
    (hf : ∀ ⦃pool a middle⦄, act.run.run pool = (.ok a, middle) → FailsFull (f a)) :
    FailsFull (act >>= f) := by
  intro pool e grown h
  rcases hr : act.run.run pool with ⟨e' | a, middle⟩
  · rw [bind_run_of_error hr] at h
    cases h
    exact ha hr
  · rw [bind_run_of_ok hr] at h
    exact hf hr h

theorem mapM {f : α → Interning β} {items : List α} (hf : ∀ a ∈ items, FailsFull (f a)) :
    FailsFull (items.mapM f) :=
  mapM_closed (P := @FailsFull) .pure (fun ha h => ha.bind fun _ a _ _ => h a) hf

end FailsFull

end Interning

namespace ConstantPool

private theorem FindsOrAdds.failsFull {act : Interning UInt16} {f : Constant → Bool} {c : Constant}
    (h : FindsOrAdds act f c) : FailsFull act := by
  intro pool e grown hr
  obtain ⟨index, -, ho⟩ | ⟨-, fits, ho⟩ | ⟨-, full, ho⟩ := h.outcome pool
  · cases hr.symm.trans ho
  · cases hr.symm.trans ho
  · cases hr.symm.trans ho
    exact ⟨_, rfl, nextIndex_toNat _, full⟩

/-- Interning a text lacks nothing but room for it. -/
theorem failsFull_internText (text : String) : FailsFull (internText text) :=
  (findsOrAdds_internText text).failsFull

private theorem failsFull_request (request : Request) : FailsFull request.run := by
  cases request with
  | ofText text => exact failsFull_internText text
  | ofClass name =>
    exact (failsFull_internText name).bind fun _ index _ _ =>
      (findsOrAdds_internClassNamed index).failsFull

/-- An attribute whose contents can be written lacks nothing but room for its name. -/
theorem failsFull_internAttribute (name : String) {info : Except Fault (List UInt8)}
    (h : ∃ bytes, info = .ok bytes) : FailsFull (internAttribute name info) := by
  obtain ⟨bytes, rfl⟩ := h
  exact (failsFull_internText name).bind fun _ index _ _ => .pure _

/-- Numbers that are written in two bytes are what they stand for. -/
structure ExactNumbers (pool : ConstantPool) : Prop where
  fits : pool.constants.next ≤ 65535
  widths : pool.constants.next = 1 + (pool.toList.map fun e => e.2.width).sum
  count : ∀ bytes, ConstantPool.format.write pool = .ok bytes →
    ofBigEndian (bytes.take 2) = pool.constants.next
  added : ∀ c index grown, (add c).run.run pool = (.ok index, grown) →
    index.toNat = pool.constants.next
  refused : ∀ (request : Request) e grown, request.run.run.run pool = (.error e, grown) →
    grown.NoRoom e

/-- Every pool has room for its next index, however it came about. -/
theorem exactNumbers (pool : ConstantPool) : pool.ExactNumbers :=
  ⟨pool.next_le, pool.next_eq_sum, fun _ => count_of_write, fun _ _ _ => add_run_eq_ok,
    fun request _ _ h => failsFull_request request h⟩

end ConstantPool

/-- No text of a class file has more characters than two bytes can count. -/
theorem ClassFile.length_le_of_text {bytes : List UInt8} {file : ClassFile}
    (h : ClassFile.parse bytes = .ok file) {index : UInt16} {text : String}
    (ht : file.constants.text index = .ok text) : text.toList.length ≤ 65535 := by
  obtain ⟨-, hw⟩ := ClassFile.writesBack.readAll (mapError_eq_ok_iff.mp h)
  obtain ⟨magic, _, -, hbody, -⟩ := pair_write_eq_ok hw
  obtain ⟨version, _, -, hrest, -⟩ := pair_write_eq_ok hbody
  obtain ⟨constants, _, hpool, -, -⟩ := pair_write_eq_ok hrest
  exact ConstantPool.length_le_of_text hpool ht

end MethodMetadata
