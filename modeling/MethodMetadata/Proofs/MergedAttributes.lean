import MethodMetadata.Proofs.ExactClassFiles
import MethodMetadata.Proofs.Frame

/-! Methods with attributes of one name more than once. Those that are opened up are stored as one,
which holds all that they held in order. All others are stored as they were. -/
namespace MethodMetadata

namespace Attribute

variable {α β γ : Type} {pool grown : ConstantPool} {name : String} {format : Format (List α)}
  {attrs merged : List Attribute}

/-- What the attributes with a name hold, one after the other. -/
def Gathers (pool : ConstantPool) (name : String) (format : Format (List α))
    (attrs : List Attribute) (values : List α) : Prop :=
  ∃ lists, List.Forall₂ (fun a list => format.readAll name a.info = .ok list)
    (attrs.filter (·.isNamed pool name)) lists ∧ lists.flatten = values

/-- Instead of the attributes with a name there is one that holds for each of their entries the same
in another pool, or none if they have no entries. -/
def Merges (pool grown : ConstantPool) (name : String) (format : Format (List α))
    (Same : α → α → Prop) (attrs merged : List Attribute) : Prop :=
  ∃ values, Gathers pool name format attrs values ∧ Holds grown name format Same values merged

private theorem exists_gathers {S : Attribute → γ → Prop} {R : α → β → Prop} {rows : γ → List β}
    {parts : List γ} (h : List.Forall₂ S attrs parts)
    (hnamed : ∀ a part, S a part → a.isNamed pool name = true →
      ∃ list, format.readAll name a.info = .ok list ∧ List.Forall₂ R list (rows part))
    (hother : ∀ a part, S a part → a.isNamed pool name = false → rows part = []) :
    ∃ values, Gathers pool name format attrs values ∧
      List.Forall₂ R values (parts.flatMap rows) := by
  induction h with
  | nil => exact ⟨[], ⟨[], .nil, rfl⟩, .nil⟩
  | @cons a part attrs parts head tail ih =>
    obtain ⟨values, ⟨lists, hlists, rfl⟩, hvalues⟩ := ih
    rw [List.flatMap_cons]
    cases hn : a.isNamed pool name with
    | true =>
      obtain ⟨list, hread, hlist⟩ := hnamed a part head hn
      refine ⟨list ++ lists.flatten, ⟨list :: lists, ?_, rfl⟩, List.rel_append hlist hvalues⟩
      rw [List.filter_cons_of_pos hn]
      exact .cons hread hlists
    | false =>
      rw [hother a part head hn]
      refine ⟨lists.flatten, ⟨lists, ?_, rfl⟩, hvalues⟩
      rwa [List.filter_cons_of_neg (by simp [hn])]

private theorem merges_of_holds {R : α → β → Prop} {R' : β → α → Prop} {Same : α → α → Prop}
    {values : List α} {rows : List β} (hg : Gathers pool name format attrs values)
    (hr : List.Forall₂ R values rows) (hh : Holds grown name format R' rows merged)
    (hs : ∀ a b a', R a b → R' b a' → Same a a') :
    Merges pool grown name format Same attrs merged := by
  refine ⟨values, hg, ?_⟩
  cases hh with
  | none =>
    cases hr
    exact .none
  | one some related named written read =>
    refine .one ?_ ?_ named written read
    · rintro rfl
      cases hr
      exact some rfl
    · exact forall₂_of_common hr.flip related fun b a a' h h' => hs a b a' h h'

end Attribute

/-- Rows of local variable tables in two pools that tell the same. -/
structure LocalEntry.Agrees (pool grown : ConstantPool) (entry entry' : LocalEntry) : Prop where
  start : entry'.start = entry.start
  length : entry'.length = entry.length
  slot : entry'.slot = entry.slot
  name : ∃ text, pool.text entry.nameIndex = .ok text ∧ grown.text entry'.nameIndex = .ok text
  descriptor : ∃ text,
    pool.text entry.descriptorIndex = .ok text ∧ grown.text entry'.descriptorIndex = .ok text

private theorem LocalEntry.agrees_of_ofEntry {pool grown : ConstantPool} {entry entry' : LocalEntry}
    {v : LocalVariable} (h : LocalVariable.ofEntry pool entry = .ok v)
    (h' : LocalVariable.ofEntry grown entry' = .ok v) : entry.Agrees pool grown entry' := by
  obtain ⟨-, hname, hdescriptor, hstart, hstop, hslot⟩ := LocalVariable.ofEntry_eq_ok_iff.mp h
  obtain ⟨-, hname', hdescriptor', hstart', hstop', hslot'⟩ := LocalVariable.ofEntry_eq_ok_iff.mp h'
  refine ⟨hstart'.symm.trans hstart, ?_, hslot'.symm.trans hslot, ⟨_, hname, hname'⟩,
    ⟨_, hdescriptor, hdescriptor'⟩⟩
  rw [← hstart, hstop'] at hstop
  rw [← hstart'] at hstop
  exact (UInt16.add_right_inj _).mp hstop

def ConstantPool.SameClass (pool grown : ConstantPool) (index index' : UInt16) : Prop :=
  ∃ name, pool.className index = .ok name ∧ grown.className index' = .ok name

namespace CodeAttribute

/-- A body whose tables of local variables are merged. The table stands behind the attributes that are
kept, and the tables of types behind it. -/
structure Merged (pool grown : ConstantPool) (code code' : CodeAttribute) : Prop where
  maxStack : code'.maxStack = code.maxStack
  bytecode : code'.bytecode = code.bytecode
  handlers : code'.handlers = code.handlers
  attributes : ∃ table,
    Attribute.Merges pool grown Attribute.localsName LocalEntry.tableFormat
      (LocalEntry.Agrees pool grown) code.attributes table ∧
    code'.attributes = code.kept pool ++ table ++
      code.attributes.filter (·.isNamed pool Attribute.localTypesName)

variable {pool grown : ConstantPool} {stored stored' : CodeAttribute} {code : Code}

private theorem localTypes_eq {a : Attribute} {part : CodePart}
    (h : CodePart.ofAttribute pool a = .ok part) : part.localTypes? =
      if a.isNamed pool Attribute.localTypesName then some a else none := by
  rcases CodePart.by_name h with ⟨-, ht, _, _, -, -, rfl⟩ | ⟨-, ht, rfl⟩ | ⟨-, ht, rfl⟩
  · simp [ht, CodePart.localTypes?]
  · simp [ht, CodePart.localTypes?]
  · simp [ht, CodePart.localTypes?]

private theorem exists_gathers_locals {attrs : List Attribute} {parts : List CodePart}
    (h : List.Forall₂ (fun a part => CodePart.ofAttribute pool a = .ok part) attrs parts) :
    ∃ entries, Attribute.Gathers pool Attribute.localsName LocalEntry.tableFormat attrs entries ∧
      List.Forall₂ (fun entry v => LocalVariable.ofEntry pool entry = .ok v) entries
        (parts.flatMap CodePart.rows) := by
  apply Attribute.exists_gathers h
  · intro a part ha hnamed
    rcases CodePart.by_name ha with ⟨-, -, entries, rows, hread, hrows, rfl⟩ | ⟨hl, -⟩ | ⟨hl, -⟩
    · exact ⟨entries, hread, hrows⟩
    · exact Bool.noConfusion (hnamed.symm.trans hl)
    · exact Bool.noConfusion (hnamed.symm.trans hl)
  · intro a part ha hother
    rcases CodePart.by_name ha with ⟨hl, -⟩ | ⟨-, -, rfl⟩ | ⟨-, -, rfl⟩
    · exact Bool.noConfusion (hother.symm.trans hl)
    · rfl
    · rfl

/-- A body that is opened up and stored again is merged. -/
theorem merged_of_storedAs (h : Code.ofAttribute pool stored = .ok code)
    (hs : code.StoredAs grown stored') : stored.Merged pool grown stored' := by
  obtain ⟨parts, hparts, -, hstack, -, hbytecode, hhandlers, hlocals, htypes, hothers⟩ :=
    Code.ofAttribute_eq_ok_iff.mp h
  obtain ⟨table, htable, hattributes⟩ := hs.attributes
  obtain ⟨entries, hgathers, hrows⟩ := exists_gathers_locals hparts
  rw [← hlocals] at hrows
  refine ⟨hs.maxStack.trans hstack, hs.bytecode.trans hbytecode, hs.handlers.trans hhandlers,
    table, ?_, ?_⟩
  · exact Attribute.merges_of_holds hgathers hrows htable fun _ _ _ =>
      LocalEntry.agrees_of_ofEntry
  · rw [hattributes, hothers, htypes, kept, CodePart.kept_eq hparts,
      filter_eq_filterMap hparts fun _ _ => localTypes_eq]

private theorem fits_of_holds {R : LocalEntry → LocalEntry → Prop} {entries : List LocalEntry}
    {table : List Attribute}
    (h : Attribute.Holds grown Attribute.localsName LocalEntry.tableFormat R entries table) :
    ∀ a ∈ table, a.Fits := by
  have hshort := h.length_lt
  cases h with
  | none => nofun
  | one some related named written read =>
    intro a ha
    obtain rfl := List.mem_singleton.mp ha
    have hlength := Format.counted_write_length written fun _ _ => LocalEntry.length_write
    rw [related.length_eq] at hshort
    unfold Attribute.Fits
    omega

/-- A merged body is read back as it was written. -/
theorem Merged.readAll {bytes : List UInt8} (h : stored.Merged pool grown stored')
    (hb : stored.bytecode.length ≤ 65535) (hf : ∀ a ∈ stored.attributes, a.Fits)
    (hw : CodeAttribute.format.write stored' = .ok bytes) :
    CodeAttribute.format.readAll Attribute.codeName bytes = .ok stored' := by
  obtain ⟨table, ⟨entries, -, hholds⟩, hattributes⟩ := h.attributes
  have hback : CodeAttribute.format.ReadsBack stored' := by
    apply CodeAttribute.readsBack
    · rw [h.bytecode]
      omega
    · rw [hattributes]
      intro a ha
      rcases List.mem_append.mp ha with ha | ha
      · rcases List.mem_append.mp ha with ha | ha
        · exact hf a (List.mem_of_mem_filter ha)
        · exact fits_of_holds hholds a ha
      · exact hf a (List.mem_of_mem_filter ha)
  exact hback.readAll hw Attribute.codeName

end CodeAttribute

def Attribute.MergesBody (pool grown : ConstantPool) (a a' : Attribute) : Prop :=
  grown.text a'.nameIndex = .ok codeName ∧ ∃ code code',
    CodeAttribute.format.readAll codeName a.info = .ok code ∧
      CodeAttribute.format.readAll codeName a'.info = .ok code' ∧ code.Merged pool grown code'

namespace Member

/-- A method whose declared exceptions are merged. The body comes first, then the exceptions, and then
all attributes that are kept. -/
structure Merged (pool grown : ConstantPool) (m m' : Member) : Prop where
  flags : m'.flags = m.flags
  name : ∃ text, pool.text m.nameIndex = .ok text ∧ grown.text m'.nameIndex = .ok text
  descriptor : ∃ text,
    pool.text m.descriptorIndex = .ok text ∧ grown.text m'.descriptorIndex = .ok text
  attributes : ∃ body exceptions,
    List.Forall₂ (Attribute.MergesBody pool grown) (m.body? pool).toList body ∧
    Attribute.Merges pool grown Attribute.exceptionsName Attribute.exceptionsFormat
      (pool.SameClass grown) m.attributes exceptions ∧
    m'.attributes = body ++ exceptions ++ m.kept pool

end Member

namespace Method

variable {pool start grown : ConstantPool} {stored written : Member} {m : Method}

private theorem exists_gathers_exceptions {attrs : List Attribute} {parts : List MethodPart}
    (h : MethodPart.Opens pool false attrs parts) :
    ∃ classes, Attribute.Gathers pool Attribute.exceptionsName Attribute.exceptionsFormat attrs
        classes ∧
      List.Forall₂ (fun index name => pool.binaryName index = .ok name) classes
        (parts.flatMap MethodPart.names) := by
  apply Attribute.exists_gathers h.forall₂
  · rintro a part ⟨seen, ha⟩ hnamed
    obtain ⟨name, hn, ha⟩ := MethodPart.ofAttribute_eq_ok_iff.mp ha
    rw [Attribute.isNamed_eq hn, decide_eq_true_iff] at hnamed
    have hne : Attribute.exceptionsName ≠ Attribute.codeName := by decide
    rw [if_neg fun hcode => hne (hnamed.symm.trans hcode.1), if_pos hnamed] at ha
    obtain ⟨classes, names, hread, hnames, rfl⟩ := ha
    exact ⟨classes, hread, hnames⟩
  · rintro a part ⟨seen, ha⟩ hother
    cases part with
    | exceptions names =>
      obtain ⟨hn, -⟩ := MethodPart.ofAttribute_exceptions_iff.mp ha
      rw [Attribute.isNamed_eq hn, decide_eq_true rfl] at hother
      cases hother
    | code body => rfl
    | other attr => rfl

private theorem mergesBody_of_holdsBody {code : Code} {a a' : Attribute}
    (h : MethodPart.ofAttribute pool false a = .ok (.code code)) (hb : HoldsBody grown code a') :
    a.MergesBody pool grown a' := by
  obtain ⟨-, -, stored, hread, hof⟩ := MethodPart.ofAttribute_code_iff.mp h
  obtain ⟨stored', hs, hw⟩ := hb.written
  have hmerged := CodeAttribute.merged_of_storedAs hof hs
  obtain ⟨-, -, hshort, -⟩ := Code.ofAttribute_eq_ok_iff.mp hof
  have hfits := (CodeAttribute.writesBack.readAll hread).1
  exact ⟨hb.named, stored, stored', hread, hmerged.readAll hshort hfits hw, hmerged⟩

private theorem body_merged (h : ofMember pool stored = .ok m) {body : List Attribute}
    (hb : List.Forall₂ (HoldsBody grown) m.code.toList body) :
    List.Forall₂ (Attribute.MergesBody pool grown) (stored.body? pool).toList body := by
  obtain ⟨parts, -, -, -, hopens, -, hcode, -⟩ := ofMember_eq_ok_iff.mp h
  have hrel := hopens.body_rel
  rw [← hcode] at hrel
  unfold Member.body?
  generalize stored.attributes.find? (·.isNamed pool Attribute.codeName) = a at hrel ⊢
  generalize m.code = code at hrel hb
  cases hrel with
  | none =>
    cases hb
    exact .nil
  | some hof =>
    obtain _ | ⟨hattr, _ | _⟩ := hb
    exact .cons (mergesBody_of_holdsBody hof hattr) .nil

/-- A method that is opened up and stored again, in its pool or in another one, is merged. The pool
that it is stored in has grown then. -/
theorem toMember_merged (h : ofMember pool stored = .ok m)
    (hw : m.toMember.run.run start = (.ok written, grown)) :
    start.Grows grown ∧ stored.Merged pool grown written := by
  obtain ⟨hgrows, hsettled⟩ := m.settles_storedAs hw
  have hs : m.StoredAs grown written := (hsettled (.refl grown)).2
  obtain ⟨parts, hflags, hname, hdescriptor, hopens, hexceptions, -, hothers⟩ :=
    ofMember_eq_ok_iff.mp h
  obtain ⟨body, exceptions, hbody, hholds, hattributes⟩ := hs.attributes
  obtain ⟨classes, hgathers, hnames⟩ := exists_gathers_exceptions hopens
  rw [← hexceptions] at hnames
  refine ⟨hgrows, hs.flags.trans hflags, ⟨_, hname, hs.name⟩, ⟨_, hdescriptor, hs.descriptor⟩,
    body, exceptions, body_merged h hbody, ?_, ?_⟩
  · refine Attribute.merges_of_holds hgathers hnames hholds fun index name index' hi hi' => ?_
    exact ⟨_, ConstantPool.binaryName_eq_ok_iff.mp hi, ConstantPool.binaryName_eq_ok_iff.mp hi'⟩
  · have hkept : stored.kept pool = m.attributes := hopens.kept_eq.trans hothers.symm
    rw [hattributes, hkept]

/-- Two tables of local variables in one body, and another body between two lists of exceptions. -/
def layeredBytes : List UInt8 :=
  (Assembly.assemble {
    version := .release8
    flags := 0x0021
    thisName := "a/Layers"
    superName := some "b/Base"
    interfaces := []
    fields := []
    methods := [{
      flags := 0x0001
      name := "run"
      descriptor := "(J)V"
      code := some {
        maxStack := 0
        maxLocals := 3
        bytecode := [0x00, 0x00, 0xB1]
        handlers := []
        locals := some [⟨"x", "J", 0, 3, 1⟩]
        attributes := [⟨"LocalVariableTypeTable", [0, 0]⟩,
          ⟨"LocalVariableTable", [0, 1, 0, 1, 0, 2, 0, 5, 0, 8, 0, 3]⟩, ⟨"LineNumberTable", [0, 0]⟩] }
      exceptions := some ["b/Base"]
      attributes := [⟨"Code", [1]⟩, ⟨"Exceptions", [0, 2, 0, 4, 0, 2]⟩, ⟨"Deprecated", []⟩] }]
    attributes := []
    strings := [] }).toOption.getD []

/-- The rows of both tables and the classes of both lists come one after the other. -/
theorem toMember_merged_layered : ∃ file stored m written grown,
    ClassFile.parse layeredBytes = .ok file ∧ stored ∈ file.methods ∧
      ofMember file.constants stored = .ok m ∧
      m.toMember.run.run file.constants = (.ok written, grown) ∧
      m.exceptions.map (·.text) = ["b/Base", "b/Base", "a/Layers"] ∧
      m.locals.map (·.name) = ["run", "x"] ∧ stored.attributes.length = 5 ∧
      written.attributes.length = 4 ∧ stored.Merged file.constants grown written := by
  have hfile : (ClassFile.parse layeredBytes).toOption.isSome := by decide +kernel
  have heval : ∀ file ∈ (ClassFile.parse layeredBytes).toOption, ∃ stored ∈ file.methods,
      stored.attributes.length = 5 ∧ (ofMember file.constants stored).toOption.isSome ∧
        ∀ m ∈ (ofMember file.constants stored).toOption,
          m.exceptions.map (·.text) = ["b/Base", "b/Base", "a/Layers"] ∧
          m.locals.map (·.name) = ["run", "x"] ∧
          (m.toMember.run.run file.constants).1.toOption.map (·.attributes.length) = some 4 := by
    decide +kernel
  obtain ⟨file, hfile⟩ := isSome_toOption_iff.mp hfile
  obtain ⟨stored, hstored, hfive, hopens, hm⟩ := heval file (toOption_eq_some_iff.mpr hfile)
  obtain ⟨m, hof⟩ := isSome_toOption_iff.mp hopens
  obtain ⟨hexceptions, hlocals, hwritten⟩ := hm m (toOption_eq_some_iff.mpr hof)
  rcases hrun : m.toMember.run.run file.constants with ⟨result, grown⟩
  rw [hrun] at hwritten
  obtain ⟨written, hresult, hfour⟩ := Option.map_eq_some_iff.mp hwritten
  obtain rfl := toOption_eq_some_iff.mp hresult
  exact ⟨file, stored, m, written, grown, hfile, hstored, hof, hrun, hexceptions, hlocals, hfive,
    hfour, (toMember_merged hof hrun).2⟩

end Method

end MethodMetadata
