import Mathlib.Data.List.Fold
import MethodMetadata.Proofs.ClassFileCodec
import MethodMetadata.Proofs.LocalVariables

/-! Method bodies open up again to what was stored, with room for all their local variables.
Attributes that are not opened are told apart by name the same way every time. -/
namespace MethodMetadata

open Interning

namespace CodePart

/-- What an attribute contributes goes by its name. -/
theorem ofAttribute_eq_ok_iff {pool : ConstantPool} {attr : Attribute} {part : CodePart} :
    ofAttribute pool attr = .ok part ↔ ∃ name, pool.text attr.nameIndex = .ok name ∧
      if name = Attribute.localsName then ∃ entries rows,
        LocalEntry.tableFormat.readAll Attribute.localsName attr.info = .ok entries ∧
        List.Forall₂ (fun entry v => LocalVariable.ofEntry pool entry = .ok v) entries rows ∧
        .locals rows = part
      else if name = Attribute.localTypesName then .localTypes attr = part
      else .other attr = part := by
  rw [ofAttribute, bind_eq_ok_iff]
  refine exists_congr fun name => and_congr_right fun _ => ?_
  split
  · simp only [bind_eq_ok_iff, mapError_eq_ok_iff, mapM_eq_ok_iff, pure_eq_ok_iff, exists_and_left]
  · split <;> exact pure_eq_ok_iff

private theorem ofAttribute_other_iff {pool : ConstantPool} {attr a : Attribute} :
    ofAttribute pool attr = .ok (.other a) ↔ attr = a ∧ ∃ name, pool.text attr.nameIndex = .ok name ∧
      name ≠ Attribute.localsName ∧ name ≠ Attribute.localTypesName := by
  rw [ofAttribute_eq_ok_iff]
  constructor
  · rintro ⟨name, hn, h⟩
    split at h
    · obtain ⟨_, _, _, _, h⟩ := h
      cases h
    next hl =>
      split at h
      · cases h
      next ht =>
        cases h
        exact ⟨rfl, name, hn, hl, ht⟩
  · rintro ⟨rfl, name, hn, hl, ht⟩
    exact ⟨name, hn, by rw [if_neg hl, if_neg ht]⟩

private theorem ofAttribute_localTypes_iff {pool : ConstantPool} {attr a : Attribute} :
    ofAttribute pool attr = .ok (.localTypes a) ↔
      attr = a ∧ pool.text attr.nameIndex = .ok Attribute.localTypesName := by
  rw [ofAttribute_eq_ok_iff]
  constructor
  · rintro ⟨name, hn, h⟩
    split at h
    · obtain ⟨_, _, _, _, h⟩ := h
      cases h
    · split at h
      next ht =>
        cases h
        exact ⟨rfl, ht ▸ hn⟩
      next => cases h
  · rintro ⟨rfl, hn⟩
    exact ⟨_, hn, rfl⟩

/-- An attribute contributes local variables if it has the name of their table and holds rows whose
texts are in the pool. -/
theorem ofAttribute_locals_iff {pool : ConstantPool} {attr : Attribute}
    {rows : List LocalVariable} :
    ofAttribute pool attr = .ok (.locals rows) ↔
      pool.text attr.nameIndex = .ok Attribute.localsName ∧ ∃ entries,
        LocalEntry.tableFormat.readAll Attribute.localsName attr.info = .ok entries ∧
          List.Forall₂ (fun entry v => LocalVariable.ofEntry pool entry = .ok v) entries rows := by
  rw [ofAttribute_eq_ok_iff]
  constructor
  · rintro ⟨name, hn, h⟩
    split at h
    next hl =>
      obtain ⟨entries, _, hread, hrows, h⟩ := h
      cases h
      exact ⟨hl ▸ hn, entries, hread, hrows⟩
    · split at h <;> cases h
  · rintro ⟨hn, entries, hread, hrows⟩
    exact ⟨_, hn, entries, rows, hread, hrows, rfl⟩

end CodePart

namespace Attribute

variable {α β : Type} {pool : ConstantPool} {name : String}

/-- The attribute that holds the entries for rows. Without rows there is none. -/
inductive Holds (pool : ConstantPool) (name : String) (format : Format (List α)) (R : β → α → Prop) :
    List β → List Attribute → Prop
  | none : Holds pool name format R [] []
  | one {rows : List β} {entries : List α} {attr : Attribute} (some : rows ≠ [])
      (related : List.Forall₂ R rows entries) (named : pool.text attr.nameIndex = .ok name)
      (written : format.write entries = .ok attr.info)
      (read : format.readAll name attr.info = .ok entries) : Holds pool name format R rows [attr]

/-- An attribute is interned with contents that read back, so that it holds what was written. -/
theorem settles_holds {format : Format (List α)} {entries : List α} (hb : format.ReadsBack entries)
    (rows : List β) (R : ConstantPool → β → α → Prop) :
    Settles (do
        let attr ← ConstantPool.internAttribute name (format.write entries)
        return [attr] : Interning (List Attribute)) fun pool attrs =>
      rows ≠ [] → List.Forall₂ (R pool) rows entries → Holds pool name format (R pool) rows attrs := by
  refine ((ConstantPool.settles_internAttribute _ _).bind fun attr => .pure [attr]).mono ?_
  rintro pool _ ⟨attr, ⟨hn, hw⟩, rfl⟩ hne h
  exact .one hne h hn hw (hb.readAll hw name)

/-- There are no more rows than can be counted. -/
theorem Holds.length_lt {format : Format α} {R : β → α → Prop} {rows : List β}
    {attrs : List Attribute} (h : Holds pool name (Format.counted format) R rows attrs) :
    rows.length < 65536 := by
  cases h with
  | none => exact Nat.zero_lt_succ _
  | one some related named written read =>
    rw [related.length_eq]
    exact (Format.counted_write_eq_ok written).1

end Attribute

namespace Code

/-- The bytecode has labels up to its end, and the attributes that a body keeps as they are
belong where they are kept. -/
structure Filed (pool : ConstantPool) (code : Code) : Prop where
  short : code.bytecode.length ≤ 65535
  attributes : ∀ a ∈ code.attributes, CodePart.ofAttribute pool a = .ok (.other a)
  localTypes : ∀ a ∈ code.localTypes, CodePart.ofAttribute pool a = .ok (.localTypes a)

/-- A body stays filed in a pool that has grown. -/
theorem Filed.grows {p q : ConstantPool} (hg : p.Grows q) {code : Code} (h : code.Filed p) :
    code.Filed q := by
  refine ⟨h.short, fun a ha => ?_, fun a ha => ?_⟩
  · obtain ⟨-, name, hn, hl⟩ := CodePart.ofAttribute_other_iff.mp (h.attributes a ha)
    exact CodePart.ofAttribute_other_iff.mpr ⟨rfl, name, hg.text hn, hl⟩
  · obtain ⟨-, hn⟩ := CodePart.ofAttribute_localTypes_iff.mp (h.localTypes a ha)
    exact CodePart.ofAttribute_localTypes_iff.mpr ⟨rfl, hg.text hn⟩

/-- What a stored body opens up to, field by field. -/
theorem ofAttribute_eq_ok_iff {pool : ConstantPool} {stored : CodeAttribute} {code : Code} :
    ofAttribute pool stored = .ok code ↔ ∃ parts,
      List.Forall₂ (fun a part => CodePart.ofAttribute pool a = .ok part) stored.attributes parts ∧
      stored.bytecode.length ≤ 65535 ∧ code.maxStack = stored.maxStack ∧
      code.maxLocals = stored.maxLocals ∧ code.bytecode = stored.bytecode ∧
      code.handlers = stored.handlers ∧ code.locals = parts.flatMap CodePart.rows ∧
      code.localTypes = parts.filterMap CodePart.localTypes? ∧
      code.attributes = parts.filterMap CodePart.other? := by
  unfold ofAttribute
  split
  next hshort =>
    simp only [bind_eq_ok_iff, mapM_eq_ok_iff, pure_eq_ok_iff]
    constructor
    · rintro ⟨parts, hp, rfl⟩
      exact ⟨parts, hp, hshort, rfl, rfl, rfl, rfl, rfl, rfl, rfl⟩
    · rintro ⟨parts, hp, -, hs, hl, hb, hh, hv, ht, ha⟩
      refine ⟨parts, hp, ?_⟩
      rw [← hs, ← hl, ← hb, ← hh, ← hv, ← ht, ← ha]
  next hlong => exact ⟨nofun, fun ⟨_, _, hshort, _⟩ => absurd hshort hlong⟩

/-- A body that was opened up is filed. -/
theorem filed_of_ofAttribute {pool : ConstantPool} {stored : CodeAttribute} {code : Code}
    (h : ofAttribute pool stored = .ok code) : code.Filed pool := by
  obtain ⟨parts, hp, hshort, -, -, hb, -, -, ht, ha⟩ := ofAttribute_eq_ok_iff.mp h
  refine ⟨hb ▸ hshort, fun a hm => ?_, fun a hm => ?_⟩
  · obtain ⟨part, hm, ho⟩ := List.mem_filterMap.mp (ha ▸ hm)
    obtain ⟨attr, -, hattr⟩ := exists_of_mem_right hp hm
    cases part <;> cases ho
    obtain ⟨rfl, -⟩ := CodePart.ofAttribute_other_iff.mp hattr
    exact hattr
  · obtain ⟨part, hm, ho⟩ := List.mem_filterMap.mp (ht ▸ hm)
    obtain ⟨attr, -, hattr⟩ := exists_of_mem_right hp hm
    cases part <;> cases ho
    obtain ⟨rfl, -⟩ := CodePart.ofAttribute_localTypes_iff.mp hattr
    exact hattr

/-- The body with room for all its local variables. -/
def raised (code : Code) : Code :=
  { code with maxLocals :=
      UInt16.ofNat ((code.locals.map LocalVariable.reach).foldr max code.maxLocals.toNat) }

private theorem neededLocals_toNat (code : Code) : code.neededLocals.toNat =
    (code.locals.map LocalVariable.reach).foldr max code.maxLocals.toNat := by
  have hmax (a b : UInt16) : (max a b).toNat = max a.toNat b.toNat := by
    change (if a ≤ b then b else a).toNat = max a.toNat b.toNat
    split
    next h => exact (Nat.max_eq_right (UInt16.le_iff_toNat_le.mp h)).symm
    next h => exact (Nat.max_eq_left (by rw [UInt16.le_iff_toNat_le] at h; omega)).symm
  rw [← List.foldl_eq_foldr, neededLocals]
  generalize code.maxLocals = most
  induction code.locals generalizing most with
  | nil => rfl
  | cons v vs ih => rw [List.foldl_cons, ih, List.map_cons, List.foldl_cons, hmax, v.slotEnd_toNat]

private theorem raised_eq (code : Code) :
    code.raised = { code with maxLocals := code.neededLocals } := by
  rw [raised, ← neededLocals_toNat, UInt16.ofNat_toNat]

/-- A body is raised to the reach of its local variables, if it had less room. -/
theorem raised_maxLocals (code : Code) : code.raised.maxLocals.toNat =
    (code.locals.map LocalVariable.reach).foldr max code.maxLocals.toNat := by
  rw [raised_eq]
  exact neededLocals_toNat code

private theorem foldr_max_le_iff {ns : List Nat} {most bound : Nat} :
    ns.foldr max most ≤ bound ↔ most ≤ bound ∧ ∀ n ∈ ns, n ≤ bound := by
  induction ns with
  | nil => simp
  | cons n ns ih => rw [List.foldr_cons, Nat.max_le, ih, List.forall_mem_cons, and_left_comm]

private theorem foldr_max_perm {ns ms : List Nat} (h : ns.Perm ms) (most : Nat) :
    ns.foldr max most = ms.foldr max most := by
  have hle {ns ms : List Nat} (h : ∀ n ∈ ns, n ∈ ms) : ns.foldr max most ≤ ms.foldr max most := by
    obtain ⟨hmost, hms⟩ := foldr_max_le_iff.mp (Nat.le_refl (ms.foldr max most))
    exact foldr_max_le_iff.mpr ⟨hmost, fun n hn => hms n (h n hn)⟩
  exact Nat.le_antisymm (hle fun _ => h.mem_iff.mp) (hle fun _ => h.mem_iff.mpr)

/-- A body with room for its local variables needs no more. -/
theorem neededLocals_raised (code : Code) : code.raised.neededLocals = code.neededLocals := by
  have h : ((code.locals.map LocalVariable.reach).foldr max code.raised.maxLocals.toNat) =
      code.raised.maxLocals.toNat := by
    have hreach := (foldr_max_le_iff.mp (Nat.le_of_eq code.raised_maxLocals.symm)).2
    exact Nat.le_antisymm (foldr_max_le_iff.mpr ⟨Nat.le_refl _, hreach⟩)
      (foldr_max_le_iff.mp (Nat.le_refl _)).1
  refine UInt16.toNat_inj.mp ((neededLocals_toNat code.raised).trans (h.trans ?_))
  rw [raised_maxLocals, neededLocals_toNat]

/-- Making room changes nothing of what is stored. -/
theorem toAttribute_raised (code : Code) : code.raised.toAttribute = code.toAttribute := by
  unfold toAttribute
  rw [neededLocals_raised]
  rfl

abbrev HoldsLocals (pool : ConstantPool) (locals : List LocalVariable) (table : List Attribute) :
    Prop :=
  Attribute.Holds pool Attribute.localsName LocalEntry.tableFormat
    (fun v entry => LocalVariable.ofEntry pool entry = .ok v) locals table

private theorem HoldsLocals.opens {pool : ConstantPool} {locals : List LocalVariable}
    {table : List Attribute} (h : HoldsLocals pool locals table) :
    List.Forall₂ (fun a part => CodePart.ofAttribute pool a = .ok part) table
      (if locals.isEmpty then [] else [.locals locals]) := by
  cases h with
  | none => exact .nil
  | one some related named written read =>
    rw [if_neg fun he => some (List.isEmpty_iff.mp he)]
    exact .cons (CodePart.ofAttribute_locals_iff.mpr ⟨named, _, read, related.flip⟩) .nil

theorem settles_internLocals (locals : List LocalVariable) :
    Settles (internLocals locals) fun pool table => HoldsLocals pool locals table := by
  have htable (entries : List LocalEntry) :
      Settles (if entries.isEmpty then pure [] else do
          let table ← ConstantPool.internAttribute Attribute.localsName
            (LocalEntry.tableFormat.write entries)
          return [table] : Interning (List Attribute)) fun pool table =>
        List.Forall₂ (fun v entry => LocalVariable.ofEntry pool entry = .ok v) locals entries →
          HoldsLocals pool locals table := by
    split
    next he =>
      refine (Settles.pure []).mono ?_
      rintro pool _ rfl h
      obtain rfl := List.isEmpty_iff.mp he
      cases h
      exact .none
    next he =>
      refine (Attribute.settles_holds (LocalEntry.readsBack_table entries) locals
        fun pool v entry => LocalVariable.ofEntry pool entry = .ok v).mono ?_
      intro pool table hholds h
      refine hholds ?_ h
      rintro rfl
      cases h
      exact he rfl
  refine ((Settles.mapM fun v _ => v.settles_toEntry).bind htable).mono ?_
  rintro pool table ⟨entries, he, ht⟩
  exact ht he

/-- What a body is stored as: all of it but the local variables as it is. -/
structure StoredAs (pool : ConstantPool) (code : Code) (stored : CodeAttribute) : Prop where
  maxStack : stored.maxStack = code.maxStack
  maxLocals : stored.maxLocals = code.neededLocals
  bytecode : stored.bytecode = code.bytecode
  handlers : stored.handlers = code.handlers
  attributes : ∃ table, HoldsLocals pool code.locals table ∧
    stored.attributes = code.attributes ++ table ++ code.localTypes

/-- Storing a body settles on one that opens up to it again. -/
theorem settles_storedAs (code : Code) :
    Settles code.toAttribute fun pool stored => code.StoredAs pool stored := by
  refine ((settles_internLocals code.locals).bind fun table => .pure _).mono ?_
  rintro pool _ ⟨table, ht, rfl⟩
  exact ⟨rfl, rfl, rfl, rfl, table, ht, rfl⟩

/-- The rows of a stored table are counted in two bytes. -/
theorem StoredAs.length_locals_lt {pool : ConstantPool} {code : Code} {stored : CodeAttribute}
    (h : code.StoredAs pool stored) : code.locals.length < 65536 := by
  obtain ⟨table, ht, -⟩ := h.attributes
  exact ht.length_lt

/-- What the attributes of a stored body contribute, in order. -/
def parts (code : Code) : List CodePart :=
  code.attributes.map .other ++ (if code.locals.isEmpty then [] else [.locals code.locals]) ++
    code.localTypes.map .localTypes

private theorem parts_rows (code : Code) : code.parts.flatMap CodePart.rows = code.locals := by
  have hempty (l : List Attribute) (f : Attribute → CodePart) (hf : ∀ a, (f a).rows = []) :
      (l.map f).flatMap CodePart.rows = [] := by
    simp [List.flatMap_eq_nil_iff, hf]
  rw [parts, List.flatMap_append, List.flatMap_append, hempty _ _ fun _ => rfl,
    hempty _ _ fun _ => rfl, List.nil_append, List.append_nil]
  cases code.locals <;> simp [CodePart.rows]

private theorem parts_localTypes (code : Code) :
    code.parts.filterMap CodePart.localTypes? = code.localTypes := by
  rw [parts, List.filterMap_append, List.filterMap_append]
  cases code.locals <;> simp [CodePart.localTypes?, Function.comp_def]

private theorem parts_other (code : Code) :
    code.parts.filterMap CodePart.other? = code.attributes := by
  rw [parts, List.filterMap_append, List.filterMap_append]
  cases code.locals <;> simp [CodePart.other?, Function.comp_def]

/-- A stored body opens up to the body, with room for its local variables. -/
theorem StoredAs.ofAttribute {pool : ConstantPool} {code : Code} {stored : CodeAttribute}
    (h : code.StoredAs pool stored) (hfiled : code.Filed pool) :
    ofAttribute pool stored = .ok code.raised := by
  obtain ⟨table, ht, ha⟩ := h.attributes
  have hparts : List.Forall₂ (fun a part => CodePart.ofAttribute pool a = .ok part)
      stored.attributes code.parts := by
    rw [ha]
    refine List.rel_append (List.rel_append ?_ ht.opens) ?_
    · exact List.forall₂_map_right_iff.mpr (List.forall₂_same.mpr hfiled.attributes)
    · exact List.forall₂_map_right_iff.mpr (List.forall₂_same.mpr hfiled.localTypes)
  rw [raised_eq]
  exact ofAttribute_eq_ok_iff.mpr ⟨_, hparts, h.bytecode ▸ hfiled.short, h.maxStack.symm,
    h.maxLocals.symm, h.bytecode.symm, h.handlers.symm, code.parts_rows.symm,
    code.parts_localTypes.symm, code.parts_other.symm⟩

private theorem StoredAs.maxLocals_toNat {pool : ConstantPool} {code : Code}
    {stored : CodeAttribute} (h : code.StoredAs pool stored) : stored.maxLocals.toNat =
      (code.locals.map LocalVariable.reach).foldr max code.maxLocals.toNat := by
  rw [h.maxLocals]
  exact neededLocals_toNat code

/-- A stored body reserves as many slots as before, and enough for every local variable below the
last slot, in whatever order they come. Only long and double take two slots, of all texts. -/
theorem toAttribute_maxLocals {code : Code} {pool grown : ConstantPool} {stored : CodeAttribute}
    (h : code.toAttribute.run.run pool = (.ok stored, grown)) :
    (∀ v : LocalVariable, v.width = if v.descriptor = "J" ∨ v.descriptor = "D" then 2 else 1) ∧
    stored.maxLocals.toNat = (code.locals.map fun v => min 65535 (v.slot.toNat + v.width)).foldr max
      code.maxLocals.toNat ∧
    code.maxLocals ≤ stored.maxLocals ∧
    (∀ v ∈ code.locals, v.slot.toNat + v.width ≤ 65535 →
      v.slot.toNat + v.width ≤ stored.maxLocals.toNat) ∧
    ∀ reordered pool' stored' grown', reordered.Perm code.locals →
      { code with locals := reordered }.toAttribute.run.run pool' = (.ok stored', grown') →
        stored'.maxLocals = stored.maxLocals := by
  have hstored {code : Code} {pool grown : ConstantPool} {stored : CodeAttribute}
      (h : code.toAttribute.run.run pool = (.ok stored, grown)) : stored.maxLocals.toNat =
        (code.locals.map LocalVariable.reach).foldr max code.maxLocals.toNat := by
    obtain ⟨-, hs⟩ := code.settles_storedAs h
    exact (hs (.refl grown)).2.maxLocals_toNat
  have hreach : LocalVariable.reach = fun v => min 65535 (v.slot.toNat + v.width) := by
    funext v
    rw [LocalVariable.reach, LocalVariable.width_eq]
  have hmax := hstored h
  obtain ⟨hstart, hlocals⟩ := foldr_max_le_iff.mp (Nat.le_of_eq hmax.symm)
  refine ⟨LocalVariable.width_eq, hreach ▸ hmax, UInt16.le_iff_toNat_le.mpr hstart,
    fun v hv hfits => ?_, fun reordered pool' stored' grown' hperm h' => ?_⟩
  · have hle := List.forall_mem_map.mp hlocals v hv
    rw [hreach] at hle
    exact Nat.le_trans (Nat.le_min.mpr ⟨hfits, Nat.le_refl _⟩) hle
  · apply UInt16.toNat_inj.mp
    rw [hstored h', hmax]
    exact foldr_max_perm (hperm.map LocalVariable.reach) _

/-- A variable of two slots, and one behind its first slot whose descriptor is none. -/
theorem toAttribute_maxLocals_wide : ∃ stored grown,
    (Code.mk 2 3 [0xB1] [] [⟨"a", "D", 0, 1, 5⟩, ⟨"b", "JJ", 0, 1, 6⟩] [] []).toAttribute.run.run
      ConstantPool.empty = (.ok stored, grown) ∧ stored.maxLocals.toNat = 7 := by
  have hs : ((Code.mk 2 3 [0xB1] [] [⟨"a", "D", 0, 1, 5⟩, ⟨"b", "JJ", 0, 1, 6⟩] []
      []).toAttribute.run.run ConstantPool.empty).1.toOption.isSome := by decide +kernel
  obtain ⟨stored, hr⟩ := isSome_toOption_iff.mp hs
  exact ⟨stored, _, Prod.ext hr rfl, (toAttribute_maxLocals (Prod.ext hr rfl)).2.1⟩

end Code

end MethodMetadata
