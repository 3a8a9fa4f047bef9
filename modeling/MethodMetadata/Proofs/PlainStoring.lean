import Mathlib.Data.List.Pairwise
import MethodMetadata.Proofs.PoolHistories
import MethodMetadata.Proofs.Replay

/-! Classes that are stored as they were read. Every text is found in the pool again, and so is every
class, unless its name stands there twice. -/
namespace MethodMetadata

def Constant.text? : Constant → Option String
  | .utf8 encoded => encoded.decoded.toOption
  | _ => none

namespace ConstantPool

def HasText (pool : ConstantPool) (text : String) : Prop :=
  ∃ index, pool.text index = .ok text

def HasClass (pool : ConstantPool) (name : String) : Prop :=
  ∃ index, pool.className index = .ok name

/-- No text stands at two indices. -/
def Distinct (pool : ConstantPool) : Prop :=
  ∀ i j text, pool.text i = .ok text → pool.text j = .ok text → i = j

/-- A class whose name stands at another index as well. -/
def Doubled (pool : ConstantPool) (c : Constant) : Prop :=
  ∃ name other text, c = .classRef name ∧ name ≠ other ∧ pool.text name = .ok text ∧
    pool.text other = .ok text

variable {pool base : ConstantPool} {text : String} {c : Constant}

private theorem Doubled.isName (h : base.Doubled c) : c.IsName := by
  obtain ⟨name, -, -, rfl, -⟩ := h
  trivial

private theorem Distinct.not_doubled (h : base.Distinct) (c : Constant) : ¬base.Doubled c := by
  rintro ⟨name, other, text, -, hne, hn, ho⟩
  exact hne (h name other text hn ho)

private theorem text_eq_ok_iff_text? {index : UInt16} :
    pool.text index = .ok text ↔ ∃ c, (index.toNat, c) ∈ pool.toList ∧ c.text? = some text := by
  rw [text_eq_ok_iff]
  constructor
  · rintro ⟨encoded, hg, hd⟩
    exact ⟨_, get_eq_ok_iff.mp hg, toOption_eq_some_iff.mpr hd⟩
  · rintro ⟨_ | _, hg, ht⟩ <;> try cases ht
    exact ⟨_, get_eq_ok_iff.mpr hg, toOption_eq_some_iff.mp ht⟩

private theorem distinct_iff_nodup :
    pool.Distinct ↔ (pool.toList.filterMap fun e => e.2.text?).Nodup := by
  rw [List.Nodup, List.pairwise_filterMap]
  constructor
  · intro h
    have hsorted : pool.toList.Pairwise fun d e => d.1 < e.1 :=
      pool.constants.laidOut.pairwise_lt pool.spaced
    refine hsorted.imp_of_mem fun {d e} hd he hlt text htd _ hte htext => ?_
    subst htext
    have hi := index_toNat hd
    have hj := index_toNat he
    have hij : UInt16.ofNat d.1 = UInt16.ofNat e.1 := by
      refine h _ _ text (text_eq_ok_iff_text?.mpr ⟨d.2, ?_, htd⟩)
        (text_eq_ok_iff_text?.mpr ⟨e.2, ?_, hte⟩)
      · rwa [hi]
      · rwa [hj]
    rw [← hi, ← hj, hij] at hlt
    exact Nat.lt_irrefl _ hlt
  · intro h i j text hi hj
    obtain ⟨c, hc, hct⟩ := text_eq_ok_iff_text?.mp hi
    obtain ⟨d, hd, hdt⟩ := text_eq_ok_iff_text?.mp hj
    by_contra hij
    have hne : (i.toNat, c) ≠ (j.toNat, d) := fun he => hij (UInt16.toNat_inj.mp (Prod.mk.inj he).1)
    have : Std.Symm fun d e : Nat × Constant =>
        ∀ b, d.2.text? = some b → ∀ b', e.2.text? = some b' → b ≠ b' :=
      ⟨fun _ _ h b hb b' hb' he => h b' hb' b hb he.symm⟩
    exact h.forall hc hd hne text hct text hdt rfl

instance (pool : ConstantPool) : Decidable pool.Distinct :=
  decidable_of_iff' _ distinct_iff_nodup

end ConstantPool

namespace Interning

open ConstantPool

variable {α β : Type} {P : Constant → Prop} {base : ConstantPool}

/-- A step that adds nothing but constants with a property to a pool that has grown by such ones, and
lacks room for no others. -/
def AddsOnly (P : Constant → Prop) (base : ConstantPool) (act : Interning α) : Prop :=
  ∀ ⦃pool⦄, base.GrowsBy P pool → base.GrowsBy P (act.run.run pool).2 ∧
    ∀ overflow, (act.run.run pool).1 = .error (.poolOverflow overflow) → P overflow.constant

namespace AddsOnly

private theorem pure (a : α) : AddsOnly P base (Pure.pure a) :=
  fun _ h => ⟨h, nofun⟩

private theorem malformed (fault : Fault) :
    AddsOnly P base (MonadExcept.throw (.malformed fault) : Interning α) :=
  fun _ h => ⟨h, nofun⟩

private theorem bind {act : Interning α} {f : α → Interning β} (ha : AddsOnly P base act)
    (hf : ∀ a, AddsOnly P base (f a)) : AddsOnly P base (act >>= f) := by
  intro pool hg
  have hact := ha hg
  rcases hr : act.run.run pool with ⟨e | a, middle⟩
  · rw [hr] at hact
    rw [bind_run_of_error hr]
    exact ⟨hact.1, fun overflow ho => hact.2 overflow (congrArg Except.error (Except.error.inj ho))⟩
  · rw [hr] at hact
    rw [bind_run_of_ok hr]
    exact hf a hact.1

private theorem mapM {f : α → Interning β} {items : List α}
    (hf : ∀ a ∈ items, AddsOnly P base (f a)) : AddsOnly P base (items.mapM f) :=
  mapM_closed (P := fun _ => AddsOnly P base) .pure .bind hf

end AddsOnly

end Interning

namespace ConstantPool

open Interning

variable {pool base : ConstantPool} {text : String}

private theorem internText_of_hasText (hg : base.Grows pool) (h : base.HasText text) :
    ∃ index, base.text index = .ok text ∧ (internText text).run.run pool = (.ok index, pool) := by
  cases hi : base.index? (Constant.spells text) with
  | none =>
    obtain ⟨index, ht⟩ := h
    exact absurd ht (index?_spells_eq_none_iff.mp hi index)
  | some index =>
    refine ⟨index, text_eq_ok_iff_spells.mpr (get_of_index? hi), ?_⟩
    rw [findsOrAdds_internText text pool, hg.index? hi]

private theorem addsOnly_internText (h : base.HasText text) :
    AddsOnly base.Doubled base (internText text) := by
  intro pool hg
  obtain ⟨index, -, hr⟩ := internText_of_hasText (hg.mono fun _ => Doubled.isName) h
  rw [hr]
  exact ⟨hg, nofun⟩

/-- A class that is there is found under the first index of its name, or else it was named by another
one. -/
theorem addsOnly_internClass (h : base.HasClass text) :
    AddsOnly base.Doubled base (internClass text) := by
  intro pool hg
  obtain ⟨index, hclass⟩ := h
  obtain ⟨other, hget, hother⟩ := className_eq_ok_iff.mp hclass
  have hgrows : base.Grows pool := hg.mono fun _ => Doubled.isName
  obtain ⟨name, hname, hr⟩ := internText_of_hasText hgrows ⟨other, hother⟩
  have hdoubled (hi : pool.index? (Constant.isClassNamed name) = none) :
      base.Doubled (.classRef name) := by
    refine ⟨name, other, text, rfl, ?_, hname, hother⟩
    rintro rfl
    have hfound := index?_eq_none_iff.mp hi index _ (hgrows.get hget)
    exact Bool.noConfusion (hfound.symm.trans (beq_self_eq_true name))
  rw [internClass, bind_run_of_ok hr]
  obtain ⟨found, -, ho⟩ | ⟨hi, fits, ho⟩ | ⟨hi, -, ho⟩ :=
    (findsOrAdds_internClassNamed name).outcome pool
  · rw [ho]
    refine ⟨hg, fun overflow h => ?_⟩
    cases h
  · rw [ho]
    refine ⟨hg.trans (growsBy_push pool fits (hdoubled hi)), fun overflow h => ?_⟩
    cases h
  · rw [ho]
    refine ⟨hg, fun overflow h => ?_⟩
    cases h
    exact hdoubled hi

private theorem addsOnly_internAttribute {name : String} (h : base.HasText name)
    (info : Except Fault (List UInt8)) : AddsOnly base.Doubled base (internAttribute name info) := by
  refine (addsOnly_internText h).bind fun index => ?_
  cases info with
  | ok info => exact .pure _
  | error fault => exact .malformed fault

end ConstantPool

open Interning

namespace Code

/-- All that storing the local variables of a body needs is in a pool. -/
def Spelled (pool : ConstantPool) (code : Code) : Prop :=
  ∀ v ∈ code.locals, pool.HasText Attribute.localsName ∧ pool.HasText v.name ∧
    pool.HasText v.descriptor

private theorem spelled_of_ofAttribute {pool : ConstantPool} {stored : CodeAttribute} {code : Code}
    (h : ofAttribute pool stored = .ok code) : code.Spelled pool := by
  obtain ⟨parts, hparts, -, -, -, -, -, hlocals, -, -⟩ := ofAttribute_eq_ok_iff.mp h
  intro v hv
  obtain ⟨part, hpart, hrow⟩ := List.mem_flatMap.mp (hlocals ▸ hv)
  obtain ⟨attr, -, hattr⟩ := exists_of_mem_right hparts hpart
  cases part with
  | locals rows =>
    obtain ⟨hname, entries, -, hrows⟩ := CodePart.ofAttribute_locals_iff.mp hattr
    obtain ⟨entry, -, hentry⟩ := exists_of_mem_right hrows hrow
    obtain ⟨-, hn, hd, -⟩ := LocalVariable.ofEntry_eq_ok_iff.mp hentry
    exact ⟨⟨_, hname⟩, ⟨_, hn⟩, ⟨_, hd⟩⟩
  | localTypes a => cases hrow
  | other a => cases hrow

variable {base : ConstantPool}

private theorem addsOnly_toEntry {v : LocalVariable} (hn : base.HasText v.name)
    (hd : base.HasText v.descriptor) : AddsOnly base.Doubled base v.toEntry := by
  unfold LocalVariable.toEntry
  split
  · exact (ConstantPool.addsOnly_internText hn).bind fun _ =>
      (ConstantPool.addsOnly_internText hd).bind fun _ => .pure _
  · exact .malformed _

private theorem addsOnly_internLocals {code : Code} (h : code.Spelled base) :
    AddsOnly base.Doubled base (internLocals code.locals) := by
  unfold Spelled at h
  cases hl : code.locals with
  | nil => exact .pure []
  | cons v vs =>
    rw [hl] at h
    refine (AddsOnly.mapM fun v hv => addsOnly_toEntry (h v hv).2.1 (h v hv).2.2).bind
      fun entries => ?_
    split
    · exact .pure []
    · exact (ConstantPool.addsOnly_internAttribute (h v List.mem_cons_self).1 _).bind
        fun _ => .pure _

private theorem addsOnly_toAttribute {code : Code} (h : code.Spelled base) :
    AddsOnly base.Doubled base code.toAttribute :=
  (addsOnly_internLocals h).bind fun _ => .pure _

end Code

namespace Method

/-- All that storing a method needs is in a pool. -/
structure Spelled (pool : ConstantPool) (m : Method) : Prop where
  name : pool.HasText m.name.text
  descriptor : pool.HasText m.descriptor
  exceptions : ∀ name ∈ m.exceptions, pool.HasText Attribute.exceptionsName ∧
    pool.HasClass name.text
  code : ∀ code ∈ m.code, pool.HasText Attribute.codeName ∧ code.Spelled pool

private theorem spelled_of_ofMember {pool : ConstantPool} {stored : Member} {m : Method}
    (h : ofMember pool stored = .ok m) : m.Spelled pool := by
  obtain ⟨parts, -, hn, hd, hopens, hexceptions, hcode, -⟩ := ofMember_eq_ok_iff.mp h
  refine ⟨⟨_, hn⟩, ⟨_, hd⟩, fun name hname => ?_, fun code hc => ?_⟩
  · obtain ⟨part, hpart, hmem⟩ := List.mem_flatMap.mp (hexceptions ▸ hname)
    obtain ⟨attr, seen, hattr⟩ := hopens.source hpart
    cases part with
    | exceptions names =>
      obtain ⟨htext, classes, -, hnames⟩ := MethodPart.ofAttribute_exceptions_iff.mp hattr
      obtain ⟨index, -, hindex⟩ := exists_of_mem_right hnames hmem
      exact ⟨⟨_, htext⟩, _, ConstantPool.binaryName_eq_ok_iff.mp hindex⟩
    | code body => cases hmem
    | other a => cases hmem
  · obtain ⟨part, hpart, hbody⟩ := List.exists_of_findSome?_eq_some (hcode ▸ hc)
    obtain ⟨attr, seen, hattr⟩ := hopens.source hpart
    cases part <;> cases hbody
    obtain ⟨htext, -, body, -, hof⟩ := MethodPart.ofAttribute_code_iff.mp hattr
    exact ⟨⟨_, htext⟩, Code.spelled_of_ofAttribute hof⟩

variable {base : ConstantPool}

private theorem addsOnly_internCode {m : Method} (h : m.Spelled base) :
    AddsOnly base.Doubled base (internCode m.code) := by
  cases hc : m.code with
  | none => exact .pure []
  | some code =>
    obtain ⟨hname, hcode⟩ := h.code code hc
    exact (Code.addsOnly_toAttribute hcode).bind fun _ =>
      (ConstantPool.addsOnly_internAttribute hname _).bind fun _ => .pure _

private theorem addsOnly_internExceptions {m : Method} (h : m.Spelled base) :
    AddsOnly base.Doubled base (internExceptions m.exceptions) := by
  have hall := h.exceptions
  cases he : m.exceptions with
  | nil => exact .pure []
  | cons name names =>
    rw [he] at hall
    exact (AddsOnly.mapM fun name hn => ConstantPool.addsOnly_internClass (hall name hn).2).bind
      fun _ => (ConstantPool.addsOnly_internAttribute (hall name List.mem_cons_self).1 _).bind
        fun _ => .pure _

private theorem addsOnly_toMember {m : Method} (h : m.Spelled base) :
    AddsOnly base.Doubled base m.toMember :=
  (ConstantPool.addsOnly_internText h.name).bind fun _ =>
    (ConstantPool.addsOnly_internText h.descriptor).bind fun _ =>
      (addsOnly_internCode h).bind fun _ => (addsOnly_internExceptions h).bind fun _ => .pure _

end Method

namespace Class

variable {file stored : ClassFile} {c : Class}

private theorem addsOnly_methods (h : ofClassFile file = .ok c) :
    AddsOnly file.constants.Doubled file.constants (c.methods.mapM Method.toMember) := by
  obtain ⟨-, -, hm, -⟩ := ofClassFile_eq_ok_iff.mp h
  refine .mapM fun m hmem => ?_
  obtain ⟨member, -, hmember⟩ := exists_of_mem_right hm hmem
  exact Method.addsOnly_toMember (Method.spelled_of_ofMember hmember)

/-- Storing a class as it was opened up adds none but doubled classes to its pool. -/
theorem growsBy_toClassFile (h : ofClassFile file = .ok c) (hs : c.toClassFile = .ok stored) :
    file.constants.GrowsBy file.constants.Doubled stored.constants := by
  obtain ⟨-, -, -, hf⟩ := ofClassFile_eq_ok_iff.mp h
  obtain ⟨members, constants, hr, rfl⟩ := toClassFile_eq_ok_iff.mp hs
  have hgrows := (addsOnly_methods h (.refl _ _)).1
  rw [hf] at hr
  rwa [hr] at hgrows

private theorem doubled_of_toClassFile_eq_error {overflow : PoolOverflow}
    (h : ofClassFile file = .ok c) (hs : c.toClassFile = .error (.poolOverflow overflow)) :
    file.constants.Doubled overflow.constant := by
  obtain ⟨-, -, -, hf⟩ := ofClassFile_eq_ok_iff.mp h
  obtain ⟨constants, hr⟩ := toClassFile_eq_error_iff.mp hs
  have hlacks := (addsOnly_methods h (.refl _ _)).2
  rw [hf] at hr
  rw [hr] at hlacks
  exact hlacks overflow rfl

end Class

namespace Injector

variable {inj inj' last : Injector} {owner : BinaryName} {m m' : Method} {d : MethodDescriptor}

/-- Without an entry and without generated names a method stays as it is. -/
theorem Resolves.eq_of_silent {names : List BinaryName} (h : Resolves inj owner m names d m' inj')
    (hzero : inj.settings.initialIndex = 0) (hentry : inj.entryFor owner m = none) : m' = m := by
  have hnames : names = m.exceptions := by
    have hdeclares := h.declares
    rwa [hentry] at hdeclares
  have hrows : inj.rowsOf owner m d = none := by
    rw [rowsOf, namesOf_fst, hentry]
    simp [hzero]
  rw [← h.method, hrows, hnames]
  rfl

private theorem runs_silent {items values : List Method}
    (h : Pass.Runs (processMethod owner) inj items values last)
    (hzero : inj.settings.initialIndex = 0) (hentry : ∀ m ∈ items, inj.entryFor owner m = none) :
    values = items := by
  induction h with
  | nil => rfl
  | @cons inj last m m' items values head tail ih =>
    obtain ⟨names, d, hres⟩ := processMethod_eq_ok_iff.mp ⟨head, rfl⟩
    have hjob : SameJob inj (processMethod owner inj m).state :=
      sameJob_processMethod ⟨rfl, rfl⟩ owner m
    rw [hres.eq_of_silent hzero (hentry m List.mem_cons_self)]
    refine congrArg (m :: ·) (ih (by rw [hjob.1, hzero]) fun m₁ hm => ?_)
    rw [hjob.entryFor_eq]
    exact hentry m₁ (List.mem_cons_of_mem _ hm)

/-- A job that has nothing for a class stores it as it was read, if its methods have descriptors. -/
theorem processClass_silent {bytes made : List UInt8} {c : Class} (hc : Class.parse bytes = .ok c)
    (hzero : inj.settings.initialIndex = 0) (hentry : ∀ m ∈ c.methods, inj.entryFor c.name m = none) :
    (inj.processClass bytes).result = .ok made ↔ c.serialize = .ok made ∧
      ∀ m ∈ c.methods, ∃ d, MethodDescriptor.ofText m.descriptor = .ok d := by
  have hsame (edited : Class) (he : (inj.processMethods c).result = .ok edited) : edited = c := by
    obtain ⟨methods, rfl, hruns⟩ := runs_of_processMethods he
    rw [runs_silent hruns hzero hentry]
  constructor
  · intro h
    obtain ⟨_, edited, hc', he, -, hs⟩ := processClass_eq_ok_iff.mp ⟨h, rfl⟩
    obtain rfl := Except.ok.inj (hc.symm.trans hc')
    refine ⟨hsame edited he ▸ hs, fun m hm => ?_⟩
    obtain ⟨d, hd, -⟩ := exists_processMethods_iff.mp ⟨edited, he⟩ m hm
    exact ⟨d, hd⟩
  · rintro ⟨hs, hd⟩
    obtain ⟨edited, he⟩ : ∃ edited, (inj.processMethods c).result = .ok edited := by
      refine exists_processMethods_iff.mpr fun m hm => ?_
      obtain ⟨d, hd⟩ := hd m hm
      exact ⟨d, hd, by rw [hentry m hm]; nofun⟩
    exact (processClass_eq_ok_iff.mpr ⟨c, edited, hc, he, rfl, (hsame edited he).symm ▸ hs⟩).1

/-- Storing a class as it was read adds nothing to its pool but classes whose names stand there more
than once, and nothing else can lack room; if no text stands there twice, the pool stays as it is.
A job that generates no names and has no entry for any method makes just what is stored so. -/
theorem serialize_unedited {bytes : List UInt8} {c : Class} (hc : Class.parse bytes = .ok c) :
    ∃ file, ClassFile.parse bytes = .ok file ∧
      (∀ made, c.serialize = .ok made → ∃ stored, c.toClassFile = .ok stored ∧
        stored.toBytes = .ok made ∧
        file.constants.GrowsBy file.constants.Doubled stored.constants ∧
        (file.constants.Distinct → stored.constants = file.constants)) ∧
      (∀ overflow, c.serialize = .error (.poolOverflow overflow) →
        file.constants.Doubled overflow.constant) ∧
      (file.constants.Distinct → ∀ overflow, c.serialize ≠ .error (.poolOverflow overflow)) ∧
      ∀ inj : Injector, inj.settings.initialIndex = 0 →
        (∀ m ∈ c.methods, inj.mappings.get? (keyText c.name m) = none) →
        ∀ made, (inj.processClass bytes).result = .ok made ↔ c.serialize = .ok made ∧
          ∀ m ∈ c.methods, ∃ d, MethodDescriptor.ofText m.descriptor = .ok d := by
  obtain ⟨file, hfile, hof⟩ := Class.parse_eq_ok_iff.mp hc
  have hlacks (overflow : PoolOverflow) (h : c.serialize = .error (.poolOverflow overflow)) :
      file.constants.Doubled overflow.constant := by
    rcases bind_eq_error_iff.mp h with h | ⟨stored, -, h⟩
    · exact Class.doubled_of_toClassFile_eq_error hof h
    · obtain ⟨fault, -, h⟩ := mapError_eq_error_iff.mp h
      cases h
  refine ⟨file, hfile, fun made h => ?_, hlacks, fun hdistinct overflow h => ?_,
    fun inj hzero hentry made => processClass_silent hc hzero hentry⟩
  · obtain ⟨stored, hstored, hbytes⟩ := Class.serialize_eq_ok_iff.mp h
    have hgrows := Class.growsBy_toClassFile hof hstored
    exact ⟨stored, hstored, hbytes, hgrows, fun hdistinct => hgrows.eq_of_none hdistinct.not_doubled⟩
  · exact hdistinct.not_doubled _ (hlacks overflow h)

/-- The names of a class and of a declared exception at the second of two indices. -/
def secondNameBytes : List UInt8 :=
  ClassFile.magic ++ [0, 0, 0, 52, 0, 7, 1, 0, 1, 0x61, 1, 0, 1, 0x61, 7, 0, 2,
    1, 0, 10, 0x45, 0x78, 0x63, 0x65, 0x70, 0x74, 0x69, 0x6F, 0x6E, 0x73, 1, 0, 1, 0x6D,
    1, 0, 3, 0x28, 0x29, 0x56, 4, 1, 0, 3, 0, 0, 0, 0, 0, 0, 0, 1,
    4, 1, 0, 5, 0, 6, 0, 1, 0, 4, 0, 0, 0, 4, 0, 1, 0, 3, 0, 0]

/-- The class that the second name belongs to is added once more under the first one. Where no text
stands twice nothing is added, and a job without entries gives the same bytes. -/
theorem serialize_unedited_twice :
    (∃ file c made stored, ClassFile.parse secondNameBytes = .ok file ∧
      Class.parse secondNameBytes = .ok c ∧ c.serialize = .ok made ∧
      c.toClassFile = .ok stored ∧ ¬file.constants.Distinct ∧
      file.constants.GrowsBy file.constants.Doubled stored.constants ∧
      stored.constants.toList = file.constants.toList ++ [(7, .classRef 1)]) ∧
    ∃ file c made stored, ClassFile.parse Assembly.queueBytes = .ok file ∧
      Class.parse Assembly.queueBytes = .ok c ∧ c.serialize = .ok made ∧
      c.toClassFile = .ok stored ∧ file.constants.Distinct ∧ stored.constants = file.constants ∧
      ((new {} MappingTable.empty).processClass Assembly.queueBytes).result = .ok made := by
  constructor
  · have hs : (Class.parse secondNameBytes).toOption.isSome := by decide +kernel
    have heval : ∀ file ∈ (ClassFile.parse secondNameBytes).toOption,
        ¬file.constants.Distinct ∧ ∀ c ∈ (Class.parse secondNameBytes).toOption,
          c.serialize.toOption.isSome ∧ ∀ stored ∈ c.toClassFile.toOption,
            stored.constants.toList = file.constants.toList ++ [(7, .classRef 1)] := by
      decide +kernel
    obtain ⟨c, hc⟩ := isSome_toOption_iff.mp hs
    obtain ⟨file, hfile, hstores, -⟩ := serialize_unedited hc
    obtain ⟨hnot, hclass⟩ := heval file (toOption_eq_some_iff.mpr hfile)
    obtain ⟨hmade, hadded⟩ := hclass c (toOption_eq_some_iff.mpr hc)
    obtain ⟨made, hmade⟩ := isSome_toOption_iff.mp hmade
    obtain ⟨stored, hstored, -, hgrows, -⟩ := hstores made hmade
    exact ⟨file, c, made, stored, hfile, hc, hmade, hstored, hnot, hgrows,
      hadded stored (toOption_eq_some_iff.mpr hstored)⟩
  · have hs : (Class.parse Assembly.queueBytes).toOption.isSome ∧
        ∀ file ∈ (ClassFile.parse Assembly.queueBytes).toOption, file.constants.Distinct := by
      decide +kernel
    have heval : ∀ c ∈ (Class.parse Assembly.queueBytes).toOption, c.serialize.toOption.isSome ∧
        ∀ m ∈ c.methods, MappingTable.empty.get? (keyText c.name m) = none ∧
          (MethodDescriptor.ofText m.descriptor).toOption.isSome := by
      decide +kernel
    obtain ⟨hparses, hdistinct⟩ := hs
    obtain ⟨c, hc⟩ := isSome_toOption_iff.mp hparses
    obtain ⟨hmade, hmethods⟩ := heval c (toOption_eq_some_iff.mpr hc)
    obtain ⟨made, hmade⟩ := isSome_toOption_iff.mp hmade
    obtain ⟨file, hfile, hstores, -, -, hjob⟩ := serialize_unedited hc
    have hpool := hdistinct file (toOption_eq_some_iff.mpr hfile)
    obtain ⟨stored, hstored, -, -, hsame⟩ := hstores made hmade
    refine ⟨file, c, made, stored, hfile, hc, hmade, hstored, hpool, hsame hpool, ?_⟩
    refine (hjob _ rfl (fun m hm => (hmethods m hm).1) made).mpr ⟨hmade, fun m hm => ?_⟩
    exact isSome_toOption_iff.mp (hmethods m hm).2

end Injector

end MethodMetadata
