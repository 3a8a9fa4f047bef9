import MethodMetadata.Proofs.Passes
import MethodMetadata.Proofs.Resolution

/-! Classes that were processed. What was written is read again as the class with the exceptions and
argument names of its methods in place. -/
namespace MethodMetadata

namespace Injector

/-- The attributes that processing the bytes of a class makes are short enough to be written. -/
def BodiesFit (inj : Injector) (bytes : List UInt8) : Prop :=
  ∀ c ∈ (Class.parse bytes).toOption, ∀ edited ∈ (inj.processMethods c).result.toOption,
    edited.BodiesFit

instance (inj : Injector) (bytes : List UInt8) : Decidable (inj.BodiesFit bytes) :=
  inferInstanceAs (Decidable (∀ _ ∈ _, _))

/-- Resolving the methods of a class is a pass over them, and changes nothing else. -/
theorem runs_of_processMethods {inj : Injector} {c edited : Class}
    (h : (inj.processMethods c).result = .ok edited) :
    ∃ methods, { c with methods := methods } = edited ∧
      Pass.Runs (processMethod c.name) inj c.methods methods (inj.processMethods c).state := by
  obtain ⟨methods, hr, hm⟩ := map_eq_ok_iff.mp h
  exact ⟨methods, hm, Pass.runs_of_run hr⟩

/-- A pass over the methods of a class that succeeds resolves them. -/
theorem processMethods_of_runs {inj last : Injector} {c : Class} {methods : List Method}
    (h : Pass.Runs (processMethod c.name) inj c.methods methods last) :
    (inj.processMethods c).result = .ok { c with methods := methods } ∧
      (inj.processMethods c).state = last := by
  obtain ⟨hr, hs⟩ := Pass.run_of_runs h
  exact ⟨map_eq_ok_iff.mpr ⟨methods, hr, rfl⟩, hs⟩

/-- A class is processed by parsing it, resolving its methods and serializing it. -/
theorem processClass_eq_ok_iff {inj inj' : Injector} {bytes made : List UInt8} :
    (inj.processClass bytes).result = .ok made ∧ (inj.processClass bytes).state = inj' ↔
      ∃ c edited, Class.parse bytes = .ok c ∧ (inj.processMethods c).result = .ok edited ∧
        (inj.processMethods c).state = inj' ∧ edited.serialize = .ok made := by
  unfold processClass
  cases Class.parse bytes with
  | error e => exact ⟨nofun, nofun⟩
  | ok c =>
    constructor
    · rintro ⟨hr, hs⟩
      obtain ⟨edited, he, hm⟩ := bind_eq_ok_iff.mp hr
      exact ⟨c, edited, rfl, he, hs, mapError_eq_ok_iff.mp hm⟩
    · rintro ⟨_, edited, hc, he, hs, hm⟩
      obtain rfl := Except.ok.inj hc
      exact ⟨bind_eq_ok_iff.mpr ⟨edited, he, mapError_eq_ok_iff.mpr hm⟩, hs⟩

/-- Methods change nothing of what the job is. -/
theorem sameJob_run (inj : Injector) (owner : BinaryName) (methods : List Method) :
    SameJob inj (Pass.run (processMethod owner) inj methods).state :=
  Pass.run_invariant (P := inj.SameJob) (fun _ m h => sameJob_processMethod h owner m) ⟨rfl, rfl⟩ _

private theorem resolves_at {inj last : Injector} {owner : BinaryName} {methods made : List Method}
    (h : Pass.Runs (processMethod owner) inj methods made last) (i : Nat) (hi : i < methods.length)
    (hm : i < made.length) :
    ∃ names d, Resolves (Pass.run (processMethod owner) inj (methods.take i)).state owner methods[i]
      names d made[i] (processMethod owner (Pass.run (processMethod owner) inj
        (methods.take i)).state methods[i]).state :=
  processMethod_eq_ok_iff.mp ⟨h.at_index i hi hm, rfl⟩

private theorem filed_of_processMethods {inj : Injector} {c edited : Class} (hc : c.Filed)
    (h : (inj.processMethods c).result = .ok edited) : edited.Filed := by
  obtain ⟨methods, rfl, hr⟩ := runs_of_processMethods h
  refine ⟨hc.name, hc.superName, fun m hm => ?_⟩
  obtain ⟨i, hi, rfl⟩ := List.mem_iff_getElem.mp hm
  have hi' : i < c.methods.length := hr.length_eq ▸ hi
  obtain ⟨names, d, hres⟩ := resolves_at hr i hi' hi
  exact hres.filed (hc.methods _ (List.getElem_mem hi'))

/-- What the bytes of a processed class are parsed as. -/
theorem parse_processClass {inj : Injector} {bytes made : List UInt8} {c : Class}
    (hc : Class.parse bytes = .ok c) (h : (inj.processClass bytes).result = .ok made)
    (hf : inj.BodiesFit bytes) :
    ∃ edited file, (inj.processMethods c).result = .ok edited ∧
      edited.toClassFile = .ok file ∧ file.toBytes = .ok made ∧ ClassFile.parse made = .ok file ∧
      Class.parse made = .ok (edited.reopened file) ∧
        c.stored.constants.Grows file.constants := by
  obtain ⟨_, edited, hc', he, -, hs⟩ := processClass_eq_ok_iff.mp ⟨h, rfl⟩
  obtain rfl := Except.ok.inj (hc.symm.trans hc')
  have hfits := hf c (toOption_eq_some_iff.mpr hc) edited (toOption_eq_some_iff.mpr he)
  have hfiled := filed_of_processMethods (Class.filed_of_parse hc) he
  obtain ⟨file, hfile, hbytes, hparse, hclass, hgrows⟩ := Class.parse_serialize hfiled hfits hs
  obtain ⟨methods, rfl, -⟩ := runs_of_processMethods he
  exact ⟨_, file, he, hfile, hbytes, hparse, hclass, hgrows⟩

/-- The local variables of a body are the arguments of its method: the receiver, unless the method
is static, and the parameters, each in the next slot and live in the whole body. -/
structure HasArguments (owner : BinaryName) (m : Method) (d : MethodDescriptor)
    (parameters : List String) (code : Code) : Prop where
  names : code.locals.map (·.name) = (if m.isStatic then [] else ["this"]) ++ parameters
  descriptors : code.locals.map (·.descriptor) =
    (if m.isStatic then [] else ["L" ++ owner.text ++ ";"]) ++ d.parameters.map FieldType.render
  slots : code.locals.map (·.slot.toNat) = List.range code.locals.length
  ranges : ∀ v ∈ code.locals, v.start = 0 ∧ v.stop.toNat = code.bytecode.length
  untyped : code.localTypes = []

/-- What the arguments of a method are written as. The bytecode and the arguments must be few enough
for two bytes. -/
theorem argumentTable_columns {m : Method}
    (hshort : ∀ code ∈ m.code, code.bytecode.length ≤ 65535) {names types : List String}
    (hl : names.length = types.length) (hcount : names.length < 65536) :
    let table := m.argumentTable names types
    table.map (·.name) = names ∧ table.map (·.descriptor) = types ∧
      table.map (·.slot.toNat) = List.range table.length ∧
      ∀ v ∈ table, v.start = 0 ∧ v.stop.toNat = (m.code.map (·.bytecode.length)).getD 0 := by
  have hpairs {α : Type} (f : String × String → α) :
      ((names.zip types).zipIdx).map (fun e => f e.1) = (names.zip types).map f := by
    rw [← Function.comp_def, ← List.map_map, List.zipIdx_map_fst]
  have hslots : ((names.zip types).zipIdx).map (fun e => (UInt16.ofNat e.2).toNat) =
      List.range (names.zip types).length := by
    rw [List.range_eq_range', ← List.zipIdx_map_snd, ← List.map_id' (List.map Prod.snd _),
      List.map_map]
    refine List.map_congr_left fun e he => ?_
    have hlt := List.snd_lt_of_mem_zipIdx he
    rw [List.length_zip] at hlt
    exact UInt16.toNat_ofNat'.trans (Nat.mod_eq_of_lt (by omega))
  have hstart : (m.code.map Code.startLabel).getD 0 = 0 := by
    cases m.code <;> rfl
  have hstop : ((m.code.map Code.endLabel).getD 0).toNat =
      (m.code.map (·.bytecode.length)).getD 0 := by
    cases hc : m.code with
    | none => rfl
    | some code =>
      have := hshort code hc
      exact UInt16.toNat_ofNat'.trans (Nat.mod_eq_of_lt (by omega))
  simp only [Method.argumentTable, List.map_map, List.length_map, List.length_zipIdx]
  refine ⟨(hpairs Prod.fst).trans (List.map_fst_zip (Nat.le_of_eq hl)),
    (hpairs Prod.snd).trans (List.map_snd_zip (Nat.le_of_eq hl.symm)), hslots, ?_⟩
  intro v hv
  obtain ⟨e, -, rfl⟩ := List.mem_map.mp hv
  exact ⟨hstart, hstop⟩

/-- What a body comes to: the local variables that are mapped or generated, or else those that it
has. Nothing else of it changes, but for the slots that it reserves. -/
structure InjectedBody (inj : Injector) (index : UInt32) (owner : BinaryName) (m : Method)
    (d : MethodDescriptor) (code code' : Code) : Prop where
  maxStack : code'.maxStack = code.maxStack
  maxLocals : code'.maxLocals.toNat =
    (code'.locals.map LocalVariable.reach).foldr max code.maxLocals.toNat
  bytecode : code'.bytecode = code.bytecode
  handlers : code'.handlers = code.handlers
  attributes : code'.attributes = code.attributes
  mapped : ∀ text ∈ (inj.entryFor owner m).bind (·.parameters),
    HasArguments owner m d (CommaList.split text) code'
  generated : (inj.entryFor owner m).bind (·.parameters) = none → 0 < inj.settings.initialIndex →
    HasArguments owner m d ((NameStem.choose (inj.manages owner) index m.name).names m.receiverCount
      d.parameters.length) code'
  kept : (inj.entryFor owner m).bind (·.parameters) = none → inj.settings.initialIndex = 0 →
    code'.locals = code.locals ∧ code'.localTypes = code.localTypes

/-- What a method comes to: the exceptions that are mapped, or else those that it declares, and its
body, if it has one, with the arguments named. -/
structure Injected (inj : Injector) (index : UInt32) (owner : BinaryName) (m m' : Method) :
    Prop where
  flags : m'.flags = m.flags
  name : m'.name = m.name
  descriptor : m'.descriptor = m.descriptor
  attributes : m'.attributes = m.attributes
  mapped : ∀ entry ∈ inj.entryFor owner m,
    m'.exceptions.map (·.text) = CommaList.split entry.exceptions
  kept : inj.entryFor owner m = none → m'.exceptions = m.exceptions
  bodyless : m.code = none → m'.code = none
  body : ∀ code ∈ m.code, ∃ d, MethodDescriptor.ofText m.descriptor = .ok d ∧
    ∃ code' ∈ m'.code, InjectedBody inj index owner m d code code'

private theorem hasArguments_of_rows {owner : BinaryName} {m : Method} {d : MethodDescriptor}
    {parameters : List String} {code : Code} (hc : m.code = some code)
    (hshort : code.bytecode.length ≤ 65535)
    (hl : (m.argumentNames parameters).length = (m.argumentTypes owner d).length)
    (hcount : (argumentRows owner m d parameters).length < 65536) :
    HasArguments owner m d parameters
      (code.replaceLocals (argumentRows owner m d parameters)).raised := by
  have hnames : (m.argumentNames parameters).length < 65536 := by
    simpa [argumentRows, Method.argumentTable, hl] using hcount
  have hshort' : ∀ code ∈ m.code, code.bytecode.length ≤ 65535 := by
    rintro _ hcode
    cases hc.symm.trans hcode
    exact hshort
  obtain ⟨hn, ht, hs, hr⟩ := argumentTable_columns hshort' hl hnames
  rw [hc] at hr
  have howner : (FieldType.object owner).render = "L" ++ owner.text ++ ";" :=
    String.toList_inj.mp (by simp [FieldType.render, FieldType.object, Descriptor.renderField,
      Descriptor.renderRef, Descriptor.renderClass])
  refine ⟨hn, ht.trans ?_, hs, hr, rfl⟩
  rw [Method.argumentTypes, howner]

/-- Mapped names come before generated ones, which need an index to start from. -/
theorem namesOf_fst (inj : Injector) (owner : BinaryName) (m : Method)
    (d : MethodDescriptor) : (inj.namesOf owner m d).1 =
      match (inj.entryFor owner m).bind (·.parameters) with
      | some text => some (CommaList.split text)
      | none =>
        if 0 < inj.settings.initialIndex then
          some ((NameStem.choose (inj.manages owner) inj.index m.name).names m.receiverCount
            d.parameters.length)
        else none := by
  unfold namesOf parameterNames
  cases (inj.entryFor owner m).bind (·.parameters) with
  | some text => rfl
  | none =>
    by_cases hg : 0 < inj.settings.initialIndex
    · have hgen : inj.generates = true := decide_eq_true hg
      simp only [hgen, if_pos hg, if_true]
    · have hgen : inj.generates = false := decide_eq_false hg
      simp only [hgen, if_neg hg, Bool.false_eq_true, if_false]

private theorem Resolves.injectedBody {inj inj' : Injector} {owner : BinaryName} {m m' : Method}
    {names : List BinaryName} {d : MethodDescriptor} (h : Resolves inj owner m names d m' inj')
    {code code' : Code} (hc : m.code = some code) (hc' : m'.code = some code')
    (hshort : code.bytecode.length ≤ 65535) (hcount : code'.locals.length < 65536) :
    InjectedBody inj inj.index owner m d code code'.raised := by
  have hrows (rows : Option (List LocalVariable)) (hr : inj.rowsOf owner m d = rows) :
      code' = rows.elim code code.replaceLocals := by
    have hm := h.method
    rw [hr] at hm
    obtain rfl := hm
    cases rows <;> simpa [named, Method.withExceptions, Method.replaceLocals, hc] using hc'.symm
  have hargs (parameters : List String) (hp : (inj.namesOf owner m d).1 = some parameters) :
      HasArguments owner m d parameters code'.raised := by
    have hr : inj.rowsOf owner m d = some (argumentRows owner m d parameters) := by
      rw [rowsOf, hp]
      rfl
    obtain rfl := hrows _ hr
    exact hasArguments_of_rows hc hshort (h.counted parameters hp) hcount
  have hrest : code'.maxStack = code.maxStack ∧ code'.maxLocals = code.maxLocals ∧
      code'.bytecode = code.bytecode ∧ code'.handlers = code.handlers ∧
      code'.attributes = code.attributes := by
    obtain rfl := hrows _ rfl
    cases inj.rowsOf owner m d <;> exact ⟨rfl, rfl, rfl, rfl, rfl⟩
  obtain ⟨hstack, hlocals, hbytecode, hhandlers, hattributes⟩ := hrest
  have hnames := namesOf_fst inj owner m d
  refine ⟨hstack, ?_, hbytecode, hhandlers, hattributes, fun text ht => hargs _ ?_,
    fun hn hg => hargs _ ?_, fun hn hg => ?_⟩
  · rw [code'.raised_maxLocals, hlocals]
    rfl
  · rw [ht] at hnames
    exact hnames
  · rw [hn] at hnames
    exact hnames.trans (if_pos hg)
  · rw [hn] at hnames
    have hr : inj.rowsOf owner m d = none := by
      rw [rowsOf, hnames.trans (if_neg (by rw [hg]; exact Nat.lt_irrefl 0))]
      rfl
    obtain rfl := hrows _ hr
    exact ⟨rfl, rfl⟩

private theorem Resolves.injected {inj inj' : Injector} {owner : BinaryName} {m m' : Method}
    {names : List BinaryName} {d : MethodDescriptor} (h : Resolves inj owner m names d m' inj')
    (hshort : ∀ code ∈ m.code, code.bytecode.length ≤ 65535)
    (hcount : ∀ code ∈ m'.code, code.locals.length < 65536) :
    Injected inj inj.index owner m m'.raised := by
  have hm := h.method
  have hfields : m'.flags = m.flags ∧ m'.name = m.name ∧ m'.descriptor = m.descriptor ∧
      m'.attributes = m.attributes ∧ m'.exceptions = names ∧ m'.code.isSome = m.code.isSome := by
    rw [← hm]
    cases inj.rowsOf owner m d with
    | none => exact ⟨rfl, rfl, rfl, rfl, rfl, rfl⟩
    | some rows => exact ⟨rfl, rfl, rfl, rfl, rfl, Option.isSome_map⟩
  obtain ⟨hflags, hname, hdescriptor, hattributes, rfl, hsome⟩ := hfields
  have hd := h.declares
  refine ⟨hflags, hname, hdescriptor, hattributes, fun entry he => ?_, fun he => ?_, fun hc => ?_,
    fun code hc => ⟨d, h.descriptor, ?_⟩⟩
  · rw [he] at hd
    exact hd
  · rw [he] at hd
    exact hd
  · rw [hc] at hsome
    exact congrArg (Option.map Code.raised) (Option.isNone_iff_eq_none.mp (by simpa using hsome))
  · rw [hc] at hsome
    obtain ⟨code', hc'⟩ := Option.isSome_iff_exists.mp hsome
    exact ⟨code'.raised, congrArg (Option.map Code.raised) hc',
      h.injectedBody hc hc' (hshort code hc) (hcount code' hc')⟩

def before (inj : Injector) (c : Class) (i : Nat) : Injector :=
  (Pass.run (processMethod c.name) inj (c.methods.take i)).state

theorem sameJob_before (inj : Injector) (c : Class) (i : Nat) :
    SameJob inj (inj.before c i) :=
  sameJob_run inj c.name _

private theorem Injected.sameJob {inj inj' : Injector} (hjob : SameJob inj inj') {index : UInt32}
    {owner : BinaryName} {m m' : Method} (h : Injected inj' index owner m m') :
    Injected inj index owner m m' := by
  obtain ⟨settings, mappings, output, next⟩ := inj'
  obtain ⟨rfl, rfl⟩ := hjob
  refine ⟨h.flags, h.name, h.descriptor, h.attributes, h.mapped, h.kept, h.bodyless, ?_⟩
  intro code hc
  obtain ⟨d, hd, code', hc', hb⟩ := h.body code hc
  exact ⟨d, hd, code', hc', hb.maxStack, hb.maxLocals, hb.bytecode, hb.handlers, hb.attributes,
    hb.mapped, hb.generated, hb.kept⟩

/-- What the methods of a class come to, once they are stored and opened up again. -/
theorem injected_of_processMethods {inj : Injector} {c edited : Class} {file : ClassFile}
    (hc : c.Filed) (he : (inj.processMethods c).result = .ok edited)
    (hfile : edited.toClassFile = .ok file) :
    ∃ hl : (edited.reopened file).methods.length = c.methods.length,
      ∀ i (hi : i < c.methods.length), Injected inj (inj.before c i).index c.name c.methods[i]
        (edited.reopened file).methods[i] := by
  have hcount := Class.length_locals_lt hfile
  obtain ⟨methods, rfl, hr⟩ := runs_of_processMethods he
  refine ⟨(List.length_map _).trans hr.length_eq, fun i hi => ?_⟩
  have hi' : i < methods.length := hr.length_eq.symm ▸ hi
  obtain ⟨names, d, hres⟩ := resolves_at hr i hi hi'
  have hshort : ∀ code ∈ c.methods[i].code, code.bytecode.length ≤ 65535 := fun code hcode =>
    ((hc.methods _ (List.getElem_mem hi)).code code hcode).short
  have hinj := hres.injected hshort (hcount _ (List.getElem_mem hi'))
  simp only [Class.reopened, List.getElem_map]
  exact hinj.sameJob (sameJob_before inj c i)

/-- A processed class is read again with the same name, super class and methods in the same order,
each with the exceptions and argument names that it is to have. The index that generated names bear
is the one that the methods in front leave. -/
theorem parse_processClass_injected {inj : Injector} {bytes made : List UInt8} {c : Class}
    (hc : Class.parse bytes = .ok c) (h : (inj.processClass bytes).result = .ok made)
    (hf : inj.BodiesFit bytes) :
    ∃ again, Class.parse made = .ok again ∧ again.name = c.name ∧ again.superName = c.superName ∧
      ∃ hl : again.methods.length = c.methods.length, ∀ i (hi : i < c.methods.length),
        Injected inj (inj.before c i).index c.name c.methods[i] again.methods[i] := by
  obtain ⟨edited, file, he, hfile, -, -, hparse, -⟩ := parse_processClass hc h hf
  have hinjected := injected_of_processMethods (Class.filed_of_parse hc) he hfile
  obtain ⟨methods, rfl, -⟩ := runs_of_processMethods he
  exact ⟨_, hparse, rfl, rfl, hinjected⟩

/-- A table that maps the constructor of the class, and of the static method nothing but that it
declares no exceptions. -/
def queueMappings : MappingTable :=
  (MappingTable.empty.insert "a/Queue.<init>(JLb/Base;)V"
    ⟨"b/Fault,java/io/IOException", some "count,base"⟩).insert "a/Queue.run([I)V" ⟨"", none⟩

def queueSettings : Settings :=
  { managedNamespace := "a/", initialIndex := 1 }

theorem parse_processClass_injected_queue : ∃ c made,
    Class.parse Assembly.queueBytes = .ok c ∧
    ((new queueSettings queueMappings).processClass Assembly.queueBytes).result = .ok made ∧
    (new queueSettings queueMappings).BodiesFit Assembly.queueBytes ∧
    ∃ again, Class.parse made = .ok again ∧ again.name = c.name ∧ again.superName = c.superName ∧
      ∃ hl : again.methods.length = c.methods.length, ∀ i (hi : i < c.methods.length),
        Injected (new queueSettings queueMappings)
          ((new queueSettings queueMappings).before c i).index c.name c.methods[i]
          again.methods[i] := by
  have hs : (Class.parse Assembly.queueBytes).toOption.isSome ∧
      ((new queueSettings queueMappings).processClass Assembly.queueBytes).result.toOption.isSome ∧
      (new queueSettings queueMappings).BodiesFit Assembly.queueBytes := by decide +kernel
  obtain ⟨hc, hmade, hf⟩ := hs
  obtain ⟨c, hc⟩ := isSome_toOption_iff.mp hc
  obtain ⟨made, hmade⟩ := isSome_toOption_iff.mp hmade
  exact ⟨c, made, hc, hmade, hf, parse_processClass_injected hc hmade hf⟩

end Injector

end MethodMetadata
