import MethodMetadata.Proofs.Injection

/-! What processing leaves alone. Everything of a class file that is not a declared exception or a
local variable is written as it was read, and its constants stay at their indices. -/
namespace MethodMetadata

def Attribute.isNamed (pool : ConstantPool) (name : String) (a : Attribute) : Bool :=
  (pool.text a.nameIndex).toOption == some name

theorem Attribute.isNamed_eq {pool : ConstantPool} {name : String} {a : Attribute}
    (h : pool.text a.nameIndex = .ok name) (name' : String) :
    a.isNamed pool name' = decide (name = name') := by
  rw [isNamed, toOption_eq_some_iff.mpr h]
  exact Bool.eq_iff_iff.mpr (by simp)

namespace CodeAttribute

/-- The attributes of a body other than the tables of its local variables and of their types. -/
def kept (pool : ConstantPool) (code : CodeAttribute) : List Attribute :=
  code.attributes.filter fun a =>
    !a.isNamed pool Attribute.localsName && !a.isNamed pool Attribute.localTypesName

/-- A body that differs from another one at most in its local variables. -/
structure Framed (pool pool' : ConstantPool) (code code' : CodeAttribute) : Prop where
  maxStack : code'.maxStack = code.maxStack
  bytecode : code'.bytecode = code.bytecode
  handlers : code'.handlers = code.handlers
  attributes : code'.kept pool' = code.kept pool

end CodeAttribute

namespace Member

/-- The attribute of the body, which is the first one with its name. -/
def body? (pool : ConstantPool) (m : Member) : Option Attribute :=
  m.attributes.find? (·.isNamed pool Attribute.codeName)

/-- The attributes other than the body and the declared exceptions. -/
def kept (pool : ConstantPool) (m : Member) : List Attribute :=
  (m.attributes.eraseP (·.isNamed pool Attribute.codeName)).filter
    fun a => !a.isNamed pool Attribute.exceptionsName

/-- A method that differs from another one at most in its declared exceptions and in the local
variables of its body, though the texts that name it may be at other indices. -/
structure Framed (pool pool' : ConstantPool) (m m' : Member) : Prop where
  flags : m'.flags = m.flags
  name : ∃ text, pool.text m.nameIndex = .ok text ∧ pool'.text m'.nameIndex = .ok text
  descriptor : ∃ text,
    pool.text m.descriptorIndex = .ok text ∧ pool'.text m'.descriptorIndex = .ok text
  attributes : m'.kept pool' = m.kept pool
  body : Option.Rel (fun a a' => ∃ code code',
    CodeAttribute.format.readAll Attribute.codeName a.info = .ok code ∧
    CodeAttribute.format.readAll Attribute.codeName a'.info = .ok code' ∧
    code.Framed pool pool' code') (m.body? pool) (m'.body? pool')

end Member

/-! What a class file opens up to tells what is kept of it. -/

/-- What an attribute of a body contributes, told apart by whether it has one of two names. -/
theorem CodePart.by_name {pool : ConstantPool} {a : Attribute} {part : CodePart}
    (h : ofAttribute pool a = .ok part) :
    (a.isNamed pool Attribute.localsName = true ∧ a.isNamed pool Attribute.localTypesName = false ∧
        ∃ entries rows,
          LocalEntry.tableFormat.readAll Attribute.localsName a.info = .ok entries ∧
          List.Forall₂ (fun entry v => LocalVariable.ofEntry pool entry = .ok v) entries rows ∧
          part = .locals rows) ∨
      (a.isNamed pool Attribute.localsName = false ∧
        a.isNamed pool Attribute.localTypesName = true ∧ part = .localTypes a) ∨
      (a.isNamed pool Attribute.localsName = false ∧
        a.isNamed pool Attribute.localTypesName = false ∧ part = .other a) := by
  obtain ⟨name, hn, h⟩ := ofAttribute_eq_ok_iff.mp h
  rw [Attribute.isNamed_eq hn, Attribute.isNamed_eq hn]
  split at h
  next hl =>
    obtain ⟨entries, rows, hread, hrows, rfl⟩ := h
    subst hl
    exact .inl ⟨decide_eq_true rfl, by decide, entries, rows, hread, hrows, rfl⟩
  next hl =>
    split at h
    next ht => exact .inr (.inl ⟨decide_eq_false hl, decide_eq_true ht, h.symm⟩)
    next ht => exact .inr (.inr ⟨decide_eq_false hl, decide_eq_false ht, h.symm⟩)

private theorem CodePart.other?_eq {pool : ConstantPool} {a : Attribute} {part : CodePart}
    (h : ofAttribute pool a = .ok part) : part.other? =
      if !a.isNamed pool Attribute.localsName && !a.isNamed pool Attribute.localTypesName then some a
      else none := by
  rcases by_name h with ⟨hl, -, _, _, -, -, rfl⟩ | ⟨-, ht, rfl⟩ | ⟨hl, ht, rfl⟩
  · simp [hl, other?]
  · simp [ht, other?]
  · simp [hl, ht, other?]

/-- The attributes that are kept are those that contribute themselves. -/
theorem CodePart.kept_eq {pool : ConstantPool} {attrs : List Attribute} {parts : List CodePart}
    (h : List.Forall₂ (fun a part => ofAttribute pool a = .ok part) attrs parts) :
    attrs.filter (fun a =>
      !a.isNamed pool Attribute.localsName && !a.isNamed pool Attribute.localTypesName) =
        parts.filterMap other? :=
  filter_eq_filterMap h fun _ _ => other?_eq

private theorem CodeAttribute.framed_of_ofAttribute {pool pool' : ConstantPool}
    {code code' : CodeAttribute} {body body' : Code} (h : Code.ofAttribute pool code = .ok body)
    (h' : Code.ofAttribute pool' code' = .ok body') (hs : body'.maxStack = body.maxStack)
    (hb : body'.bytecode = body.bytecode) (hh : body'.handlers = body.handlers)
    (ha : body'.attributes = body.attributes) : code.Framed pool pool' code' := by
  obtain ⟨parts, hp, -, hs1, -, hb1, hh1, -, -, ha1⟩ := Code.ofAttribute_eq_ok_iff.mp h
  obtain ⟨parts', hp', -, hs2, -, hb2, hh2, -, -, ha2⟩ := Code.ofAttribute_eq_ok_iff.mp h'
  refine ⟨by rw [← hs1, ← hs2, hs], by rw [← hb1, ← hb2, hb], by rw [← hh1, ← hh2, hh], ?_⟩
  rw [kept, kept, CodePart.kept_eq hp, CodePart.kept_eq hp', ← ha1, ← ha2, ha]

namespace MethodPart

/-- Of the attributes, the first one that is a body and those that declare exceptions are not kept;
once a body has been found, others with its name are. -/
theorem Opens.kept_eq {pool : ConstantPool} {seen : Bool} {attrs : List Attribute}
    {parts : List MethodPart} (h : Opens pool seen attrs parts) :
    (if seen then attrs else attrs.eraseP (·.isNamed pool Attribute.codeName)).filter
      (fun a => !a.isNamed pool Attribute.exceptionsName) = parts.filterMap other? := by
  induction h with
  | nil => simp
  | @cons seen attr part attrs parts head tail ih =>
    rw [List.filterMap_cons, ← ih]
    cases part with
    | code c =>
      obtain ⟨hn, rfl, -⟩ := ofAttribute_code_iff.mp head
      simp [Attribute.isNamed_eq hn, other?, code?]
    | exceptions names =>
      obtain ⟨hn, -⟩ := ofAttribute_exceptions_iff.mp head
      have hcode : attr.isNamed pool Attribute.codeName = false := by
        rw [Attribute.isNamed_eq hn]
        decide
      have hexc : attr.isNamed pool Attribute.exceptionsName = true := by
        rw [Attribute.isNamed_eq hn]
        decide
      cases seen <;> simp [hcode, hexc, other?, code?]
    | other a =>
      obtain ⟨rfl, name, hn, hc, he⟩ := ofAttribute_other_iff.mp head
      have hexc : attr.isNamed pool Attribute.exceptionsName = false := by
        rw [Attribute.isNamed_eq hn]
        exact decide_eq_false he
      cases seen with
      | true => simp [hexc, other?, code?]
      | false =>
        have hcode : attr.isNamed pool Attribute.codeName = false := by
          rw [Attribute.isNamed_eq hn]
          exact decide_eq_false fun hname => Bool.false_ne_true (hc hname)
        simp [hcode, hexc, other?, code?]

/-- The first attribute with the name of a body is the one that the body is opened up from. -/
theorem Opens.body_rel {pool : ConstantPool} {attrs : List Attribute}
    {parts : List MethodPart} (h : Opens pool false attrs parts) :
    Option.Rel (fun a c => ofAttribute pool false a = .ok (.code c))
      (attrs.find? (·.isNamed pool Attribute.codeName)) (parts.findSome? code?) := by
  generalize hs : false = seen at h
  induction h with
  | nil => exact .none
  | @cons seen attr part attrs parts head tail ih =>
    obtain rfl := hs
    rw [List.find?_cons, List.findSome?_cons]
    cases part with
    | code c =>
      obtain ⟨hn, -, -⟩ := ofAttribute_code_iff.mp head
      rw [Attribute.isNamed_eq hn, decide_eq_true rfl]
      exact .some head
    | exceptions names =>
      obtain ⟨hn, -⟩ := ofAttribute_exceptions_iff.mp head
      rw [Attribute.isNamed_eq hn, decide_eq_false (by decide)]
      exact ih rfl
    | other a =>
      obtain ⟨rfl, name, hn, hc, -⟩ := ofAttribute_other_iff.mp head
      rw [Attribute.isNamed_eq hn, decide_eq_false fun hname => Bool.false_ne_true (hc hname)]
      exact ih rfl

end MethodPart

/-- Methods that open up to the same but for exceptions and local variables. -/
theorem Member.framed_of_injected {inj : Injector} {index : UInt32} {owner : BinaryName}
    {pool pool' : ConstantPool} {stored stored' : Member} {m m' : Method}
    (h : Method.ofMember pool stored = .ok m) (h' : Method.ofMember pool' stored' = .ok m')
    (hi : Injector.Injected inj index owner m m') : stored.Framed pool pool' stored' := by
  obtain ⟨parts, hf1, hn1, hd1, ho1, -, hc1, ha1⟩ := Method.ofMember_eq_ok_iff.mp h
  obtain ⟨parts', hf2, hn2, hd2, ho2, -, hc2, ha2⟩ := Method.ofMember_eq_ok_iff.mp h'
  refine ⟨by rw [← hf1, ← hf2, hi.flags], ⟨_, hn1, hi.name ▸ hn2⟩,
    ⟨_, hd1, hi.descriptor ▸ hd2⟩, ?_, ?_⟩
  · exact ho2.kept_eq.trans ((ha2.symm.trans (hi.attributes.trans ha1)).trans ho1.kept_eq.symm)
  · have hrel := ho1.body_rel
    have hrel' := ho2.body_rel
    rw [← hc1] at hrel
    rw [← hc2] at hrel'
    unfold body?
    generalize stored.attributes.find? (·.isNamed pool Attribute.codeName) = a at hrel ⊢
    generalize stored'.attributes.find? (·.isNamed pool' Attribute.codeName) = a' at hrel' ⊢
    cases hc : m.code with
    | none =>
      rw [hc] at hrel
      rw [hi.bodyless hc] at hrel'
      cases hrel
      cases hrel'
      exact .none
    | some body =>
      obtain ⟨d, -, body', hc', hb⟩ := hi.body body hc
      rw [hc] at hrel
      rw [hc'] at hrel'
      cases hrel with | some hs =>
      cases hrel' with | some hs' =>
      obtain ⟨-, -, code, hcode, hof⟩ := MethodPart.ofAttribute_code_iff.mp hs
      obtain ⟨-, -, code', hcode', hof'⟩ := MethodPart.ofAttribute_code_iff.mp hs'
      exact .some ⟨code, code', hcode, hcode', CodeAttribute.framed_of_ofAttribute hof hof'
        hb.maxStack hb.bytecode hb.handlers hb.attributes⟩

namespace Injector

/-- A processed class file is the one that was read, but for names behind its constants and for
the declared exceptions and the local variables of its methods. -/
theorem parse_processClass_framed {inj : Injector} {bytes made : List UInt8} {file : ClassFile}
    (hfile : ClassFile.parse bytes = .ok file) (h : (inj.processClass bytes).result = .ok made)
    (hf : inj.BodiesFit bytes) :
    ∃ file', ClassFile.parse made = .ok file' ∧
      file' = { file with constants := file'.constants, methods := file'.methods } ∧
      (∃ added, file'.constants.toList = file.constants.toList ++ added ∧
        ∀ e ∈ added, e.2.IsName) ∧
      List.Forall₂ (Member.Framed file.constants file'.constants) file.methods file'.methods := by
  obtain ⟨c, _, hc, -⟩ := processClass_eq_ok_iff.mp ⟨h, rfl⟩
  obtain ⟨_, hfile', hof⟩ := Class.parse_eq_ok_iff.mp hc
  obtain rfl := Except.ok.inj (hfile.symm.trans hfile')
  obtain ⟨edited, file', he, hmade, -, hread, hparse, hgrows⟩ := parse_processClass hc h hf
  obtain ⟨_, hread', hof'⟩ := Class.parse_eq_ok_iff.mp hparse
  obtain rfl := Except.ok.inj (hread.symm.trans hread')
  obtain ⟨-, -, hm, hstored⟩ := Class.ofClassFile_eq_ok_iff.mp hof
  obtain ⟨-, -, hm', -⟩ := Class.ofClassFile_eq_ok_iff.mp hof'
  obtain ⟨hl, hinjected⟩ := injected_of_processMethods (Class.filed_of_parse hc) he hmade
  rw [hstored] at hgrows
  refine ⟨file', hread, ?_, hgrows, ?_⟩
  · obtain ⟨methods, rfl, -⟩ := runs_of_processMethods he
    obtain ⟨members, constants, -, rfl⟩ := Class.toClassFile_eq_ok_iff.mp hmade
    rw [hstored]
  · obtain ⟨hlen, hget⟩ := List.forall₂_iff_get.mp hm
    obtain ⟨hlen', hget'⟩ := List.forall₂_iff_get.mp hm'
    refine List.forall₂_iff_get.mpr ⟨hlen.trans (hl.symm.trans hlen'.symm), fun i hi hi' => ?_⟩
    have hc : i < c.methods.length := hlen ▸ hi
    exact Member.framed_of_injected (hget i hi hc) (hget' i hi' (hlen' ▸ hi')) (hinjected i hc)

theorem parse_processClass_framed_queue : ∃ file made file',
    ClassFile.parse Assembly.queueBytes = .ok file ∧
    ((new queueSettings queueMappings).processClass Assembly.queueBytes).result = .ok made ∧
    (new queueSettings queueMappings).BodiesFit Assembly.queueBytes ∧
    ClassFile.parse made = .ok file' ∧
    List.Forall₂ (Member.Framed file.constants file'.constants) file.methods file'.methods := by
  have hs : (ClassFile.parse Assembly.queueBytes).toOption.isSome ∧
      ((new queueSettings queueMappings).processClass Assembly.queueBytes).result.toOption.isSome ∧
      (new queueSettings queueMappings).BodiesFit Assembly.queueBytes := by decide +kernel
  obtain ⟨hfile, hmade, hf⟩ := hs
  obtain ⟨file, hfile⟩ := isSome_toOption_iff.mp hfile
  obtain ⟨made, hmade⟩ := isSome_toOption_iff.mp hmade
  obtain ⟨file', hparse, -, -, hmethods⟩ := parse_processClass_framed hfile hmade hf
  exact ⟨file, made, file', hfile, hmade, hf, hparse, hmethods⟩

end Injector

end MethodMetadata
