import MethodMetadata.Injector.Process
import MethodMetadata.Proofs.Edits
import MethodMetadata.Proofs.GeneratedNames

/-! What a method is resolved to. Resolving it once more, after it was stored and read again,
gives the same method and leaves the same injector. -/
namespace MethodMetadata

namespace Method

variable {m : Method} {owner : BinaryName} {d : MethodDescriptor} {parameters : List String}

theorem length_argumentNames :
    (m.argumentNames parameters).length = parameters.length + m.receiverCount := by
  unfold argumentNames receiverCount
  cases m.isStatic <;> simp

theorem length_argumentTypes :
    (m.argumentTypes owner d).length = d.parameters.length + m.receiverCount := by
  unfold argumentTypes receiverCount
  cases m.isStatic <;> simp

/-- All arguments are named exactly if each parameter is. -/
theorem length_argumentNames_eq_iff :
    (m.argumentNames parameters).length = (m.argumentTypes owner d).length ↔
      parameters.length = d.parameters.length := by
  rw [length_argumentNames, length_argumentTypes, Nat.add_right_cancel_iff]

end Method

namespace Injector

def entryFor (inj : Injector) (owner : BinaryName) (m : Method) : Option MappingEntry :=
  inj.mappings.get? (keyText owner m)

/-- The exceptions that a method is to declare: those mapped, or else those it declares. -/
def Declares (mapped : Option String) (m : Method) (names : List BinaryName) : Prop :=
  match mapped with
  | none => names = m.exceptions
  | some text => names.map (·.text) = CommaList.split text

private theorem mapExceptions_eq_ok_iff {m m' : Method} {text : String} :
    mapExceptions m text = .ok m' ↔
      ∃ names, names.map (·.text) = CommaList.split text ∧ m.withExceptions names = m' := by
  have hnames {names : List BinaryName} :
      (CommaList.split text).mapM BinaryName.ofString = .ok names ↔
        names.map (·.text) = CommaList.split text := by
    simp only [mapM_eq_ok_iff, BinaryName.ofString_eq_ok_iff]
    rw [← List.forall₂_eq_eq_eq, List.forall₂_map_left_iff]
    exact ⟨fun h => h.flip, fun h => h.flip⟩
  simp only [← hnames]
  unfold mapExceptions
  split
  next names he => simp [he, Method.withExceptions]
  next fault he => simp [he]

private theorem resolveExceptions_eq_ok_iff {m m' : Method} {mapped : Option String}
    {text : String} :
    (resolveExceptions m mapped).result = .ok text ∧ (resolveExceptions m mapped).state = m' ↔
      ∃ names, Declares mapped m names ∧ m.withExceptions names = m' ∧ declared m' = text := by
  cases mapped with
  | none =>
    constructor
    · rintro ⟨h, rfl⟩
      exact ⟨_, rfl, rfl, Except.ok.inj h⟩
    · rintro ⟨_, rfl, rfl, rfl⟩
      exact ⟨rfl, rfl⟩
  | some mapped =>
    have hmap : mapExceptions m mapped = .ok m' ↔ _ := mapExceptions_eq_ok_iff
    cases he : mapExceptions m mapped with
    | ok made =>
      simp only [resolveExceptions, he, Except.ok.injEq] at hmap ⊢
      constructor
      · rintro ⟨rfl, rfl⟩
        obtain ⟨names, hd, hn⟩ := hmap.mp rfl
        exact ⟨names, hd, hn, rfl⟩
      · rintro ⟨names, hd, hn, rfl⟩
        obtain rfl := hmap.mpr ⟨names, hd, hn⟩
        exact ⟨rfl, rfl⟩
    | error e =>
      simp only [resolveExceptions, he]
      refine ⟨nofun, ?_⟩
      rintro ⟨names, hd, hn, -⟩
      cases he.symm.trans (hmap.mpr ⟨names, hd, hn⟩)

def argumentRows (owner : BinaryName) (m : Method) (d : MethodDescriptor)
    (parameters : List String) : List LocalVariable :=
  m.argumentTable (m.argumentNames parameters) (m.argumentTypes owner d)

/-- The method with other local variables, if it is to get any. -/
def named (m : Method) : Option (List LocalVariable) → Method
  | none => m
  | some rows => m.replaceLocals rows

/-- Names for parameters are those mapped, which use up no index, or generated, one for each. -/
theorem parameterNames_cases {inj : Injector} {owner : BinaryName} {m : Method} {count : Nat}
    {mapped : Option String} {parameters : List String} {index : UInt32}
    (h : inj.parameterNames owner m count mapped = (some parameters, index)) :
    (∃ text, mapped = some text ∧ parameters = CommaList.split text ∧ index = inj.index) ∨
      mapped = none ∧ parameters =
        (NameStem.choose (inj.manages owner) inj.index m.name).names m.receiverCount count := by
  unfold parameterNames at h
  cases mapped with
  | some text =>
    cases h
    exact .inl ⟨text, rfl, rfl, rfl⟩
  | none =>
    dsimp only at h
    split at h
    · cases h
      exact .inr ⟨rfl, rfl⟩
    · cases h

private theorem index_of_unnamed {inj : Injector} {owner : BinaryName} {m : Method} {count : Nat}
    {mapped : Option String} (h : (inj.parameterNames owner m count mapped).1 = none) :
    (inj.parameterNames owner m count mapped).2 = inj.index := by
  unfold parameterNames at h ⊢
  split
  next => cases h
  next =>
    split
    next hg =>
      rw [if_pos hg] at h
      cases h
    next => rfl

/-- Names are resolved with success if the descriptor is one and there are as many names as
parameters, or none. -/
theorem resolveParameters_eq_ok_iff {inj inj' : Injector} {owner : BinaryName} {m m' : Method}
    {mapped : Option String} {text : String} :
    (inj.resolveParameters owner m mapped).result = .ok text ∧
        (inj.resolveParameters owner m mapped).state = (inj', m') ↔
      ∃ d, MethodDescriptor.ofText m.descriptor = .ok d ∧
        let answer := inj.parameterNames owner m d.parameters.length mapped
        let rows := answer.1.map (argumentRows owner m d)
        (∀ parameters ∈ answer.1,
          (m.argumentNames parameters).length = (m.argumentTypes owner d).length) ∧
        inj.report owner (rows.getD m.locals) = text ∧ { inj with index := answer.2 } = inj' ∧
          named m rows = m' := by
  unfold resolveParameters
  cases hd : MethodDescriptor.ofText m.descriptor with
  | error e => exact ⟨nofun, nofun⟩
  | ok d =>
    have hindex : (inj.parameterNames owner m d.parameters.length mapped).1 = none → _ :=
      index_of_unnamed
    simp only [Except.ok.injEq, exists_eq_left']
    generalize inj.parameterNames owner m d.parameters.length mapped = answer at hindex ⊢
    rcases answer with ⟨_ | parameters, index⟩
    · obtain rfl := hindex rfl
      simp [named]
    · dsimp only
      split
      next hl => simp [hl, named, argumentRows]
      next hl => simp [hl]

/-- The names that the parameters of a method are to get, and the index that is next then. -/
def namesOf (inj : Injector) (owner : BinaryName) (m : Method) (d : MethodDescriptor) :
    Option (List String) × UInt32 :=
  inj.parameterNames owner m d.parameters.length ((inj.entryFor owner m).bind (·.parameters))

def rowsOf (inj : Injector) (owner : BinaryName) (m : Method) (d : MethodDescriptor) :
    Option (List LocalVariable) :=
  (inj.namesOf owner m d).1.map (argumentRows owner m d)

/-- What a method with a descriptor is resolved to, and the injector that this leaves. -/
structure Resolves (inj : Injector) (owner : BinaryName) (m : Method) (names : List BinaryName)
    (d : MethodDescriptor) (m' : Method) (inj' : Injector) : Prop where
  declares : Declares ((inj.entryFor owner m).map (·.exceptions)) m names
  descriptor : MethodDescriptor.ofText m.descriptor = .ok d
  counted : ∀ parameters ∈ (inj.namesOf owner m d).1,
    (m.argumentNames parameters).length = (m.argumentTypes owner d).length
  method : named (m.withExceptions names) (inj.rowsOf owner m d) = m'
  injector : { inj with index := (inj.namesOf owner m d).2 }.collect (keyText owner m)
    (declared (m.withExceptions names))
    (inj.report owner ((inj.rowsOf owner m d).getD m.locals)) = inj'

private theorem processMethod_steps {inj inj' : Injector} {owner : BinaryName} {m m' : Method} :
    (processMethod owner inj m).result = .ok m' ∧ (processMethod owner inj m).state = inj' ↔
      ∃ text made reported left,
        ((resolveExceptions m ((inj.entryFor owner m).map (·.exceptions))).result = .ok text ∧
          (resolveExceptions m ((inj.entryFor owner m).map (·.exceptions))).state = made) ∧
        ((inj.resolveParameters owner made ((inj.entryFor owner m).bind (·.parameters))).result =
            .ok reported ∧
          (inj.resolveParameters owner made ((inj.entryFor owner m).bind (·.parameters))).state =
            (left, m')) ∧ left.collect (keyText owner m) text reported = inj' := by
  simp only [processMethod, entryFor]
  generalize resolveExceptions m ((inj.mappings.get? (keyText owner m)).map (·.exceptions)) =
    exceptions
  obtain ⟨e | text, made, log⟩ := exceptions
  · simp
  · dsimp only
    generalize hp : inj.resolveParameters owner made
      ((inj.mappings.get? (keyText owner m)).bind (·.parameters)) = parameters
    obtain ⟨e | reported, ⟨left, after⟩, log'⟩ := parameters
    · simp [hp]
    · simp only [Except.ok.injEq]
      constructor
      · rintro ⟨rfl, rfl⟩
        exact ⟨text, made, reported, left, ⟨rfl, rfl⟩, by rw [hp]; exact ⟨rfl, rfl⟩, rfl⟩
      · rintro ⟨_, _, _, _, ⟨rfl, rfl⟩, hrest, rfl⟩
        rw [hp] at hrest
        obtain ⟨hr, hs⟩ := hrest
        cases hr
        cases hs
        exact ⟨rfl, rfl⟩

/-- A method is resolved with success exactly in the way that `Resolves` describes. -/
theorem processMethod_eq_ok_iff {inj inj' : Injector} {owner : BinaryName} {m m' : Method} :
    (processMethod owner inj m).result = .ok m' ∧ (processMethod owner inj m).state = inj' ↔
      ∃ names d, Resolves inj owner m names d m' inj' := by
  simp only [processMethod_steps, resolveExceptions_eq_ok_iff, resolveParameters_eq_ok_iff]
  constructor
  · rintro ⟨_, _, _, _, ⟨names, hn, rfl, rfl⟩, ⟨d, hd, hc, rfl, rfl, rfl⟩, rfl⟩
    exact ⟨names, d, hn, hd, hc, rfl, rfl⟩
  · rintro ⟨names, d, h⟩
    exact ⟨_, _, _, _, ⟨names, h.declares, rfl, rfl⟩,
      ⟨d, h.descriptor, h.counted, rfl, rfl, h.method⟩, h.injector⟩

/-- Injectors that do the same job: they may differ in their output and in the index. -/
def SameJob (inj inj' : Injector) : Prop :=
  inj'.settings = inj.settings ∧ inj'.mappings = inj.mappings

theorem SameJob.generates_eq {inj inj' : Injector} (h : SameJob inj inj') :
    inj'.generates = inj.generates := by
  rw [generates, generates, h.1]

theorem SameJob.manages_eq {inj inj' : Injector} (h : SameJob inj inj') (owner : BinaryName) :
    inj'.manages owner = inj.manages owner := by
  rw [manages, manages, h.1]

theorem sameJob_collect (inj : Injector) (key exceptions parameters : String) :
    SameJob inj (inj.collect key exceptions parameters) := by
  unfold collect
  split <;> exact ⟨rfl, rfl⟩

private theorem sameJob_resolveParameters (inj : Injector) (owner : BinaryName) (m : Method)
    (mapped : Option String) : SameJob inj (inj.resolveParameters owner m mapped).state.1 := by
  unfold resolveParameters
  split
  · exact ⟨rfl, rfl⟩
  · split
    · exact ⟨rfl, rfl⟩
    · dsimp only
      split <;> exact ⟨rfl, rfl⟩

/-- No method changes what the job is, not even one that fails. -/
theorem sameJob_processMethod {inj inj' : Injector} (h : SameJob inj inj') (owner : BinaryName)
    (m : Method) : SameJob inj (processMethod owner inj' m).state := by
  unfold processMethod
  dsimp only
  split
  · exact h
  · have hp := sameJob_resolveParameters inj' owner
      (resolveExceptions m ((inj'.mappings.get? (keyText owner m)).map (·.exceptions))).state
      ((inj'.mappings.get? (keyText owner m)).bind (·.parameters))
    have hinj := And.intro (hp.1.trans h.1) (hp.2.trans h.2)
    split
    · exact hinj
    · have hc := sameJob_collect (inj'.resolveParameters owner
        (resolveExceptions m ((inj'.mappings.get? (keyText owner m)).map (·.exceptions))).state
        ((inj'.mappings.get? (keyText owner m)).bind (·.parameters))).state.1
      exact ⟨(hc _ _ _).1.trans hinj.1, (hc _ _ _).2.trans hinj.2⟩

/-! Whatever the injector makes of a method, it looks only at what it never changes. -/

/-- Methods with the same key whose arguments are the same and live in the same range. -/
structure Alike (m m' : Method) : Prop where
  flags : m'.flags = m.flags
  name : m'.name = m.name
  descriptor : m'.descriptor = m.descriptor
  bytecode : m'.code.map (·.bytecode) = m.code.map (·.bytecode)

namespace Alike

variable {m m' : Method}

private theorem keyText_eq (h : Alike m m') (owner : BinaryName) :
    keyText owner m' = keyText owner m := by
  rw [keyText, keyText, h.name, h.descriptor]

private theorem entryFor_eq (h : Alike m m') (inj : Injector) (owner : BinaryName) :
    inj.entryFor owner m' = inj.entryFor owner m := by
  rw [entryFor, entryFor, h.keyText_eq]

private theorem isStatic_eq (h : Alike m m') : m'.isStatic = m.isStatic := by
  rw [Method.isStatic, Method.isStatic, h.flags]

private theorem namesOf_eq (h : Alike m m') (inj : Injector) (owner : BinaryName)
    (d : MethodDescriptor) : inj.namesOf owner m' d = inj.namesOf owner m d := by
  have hcount : m'.receiverCount = m.receiverCount := by
    rw [Method.receiverCount, Method.receiverCount, h.isStatic_eq]
  unfold namesOf parameterNames
  rw [h.entryFor_eq, h.name, hcount]

private theorem argumentNames_eq (h : Alike m m') (parameters : List String) :
    m'.argumentNames parameters = m.argumentNames parameters := by
  rw [Method.argumentNames, Method.argumentNames, h.isStatic_eq]

private theorem argumentTypes_eq (h : Alike m m') (owner : BinaryName) (d : MethodDescriptor) :
    m'.argumentTypes owner d = m.argumentTypes owner d := by
  rw [Method.argumentTypes, Method.argumentTypes, h.isStatic_eq]

private theorem argumentTable_eq (h : Alike m m') (names types : List String) :
    m'.argumentTable names types = m.argumentTable names types := by
  have hlabel (f : List UInt8 → UInt16) :
      m'.code.map (fun code => f code.bytecode) = m.code.map fun code => f code.bytecode := by
    have hf := congrArg (Option.map f) h.bytecode
    rwa [Option.map_map, Option.map_map] at hf
  have hstart : m'.code.map Code.startLabel = m.code.map Code.startLabel := hlabel fun _ => 0
  have hend : m'.code.map Code.endLabel = m.code.map Code.endLabel :=
    hlabel fun bytecode => UInt16.ofNat bytecode.length
  rw [Method.argumentTable, Method.argumentTable, hstart, hend]

private theorem rowsOf_eq (h : Alike m m') (inj : Injector) (owner : BinaryName)
    (d : MethodDescriptor) : inj.rowsOf owner m' d = inj.rowsOf owner m d := by
  have hrows : argumentRows owner m' d = argumentRows owner m d := by
    funext parameters
    rw [argumentRows, argumentRows, h.argumentNames_eq, h.argumentTypes_eq, h.argumentTable_eq]
  rw [rowsOf, rowsOf, h.namesOf_eq, hrows]

end Alike

private theorem alike_named (m : Method) (names : List BinaryName)
    (rows : Option (List LocalVariable)) : Alike m (named (m.withExceptions names) rows) := by
  cases rows with
  | none => exact ⟨rfl, rfl, rfl, rfl⟩
  | some rows =>
    refine ⟨rfl, rfl, rfl, ?_⟩
    cases h : m.code <;>
      simp [named, Method.replaceLocals, Method.withExceptions, Code.replaceLocals, h]

private theorem Alike.raised {m m' : Method} (h : Alike m m') : Alike m m'.raised := by
  refine ⟨h.flags, h.name, h.descriptor, Eq.trans ?_ h.bytecode⟩
  cases hc : m'.code <;> simp [Method.raised, Code.raised, hc]

private theorem named_again (m : Method) (names : List BinaryName)
    (rows : Option (List LocalVariable)) :
    named ((named (m.withExceptions names) rows).raised.withExceptions names) rows =
        (named (m.withExceptions names) rows).raised ∧
      rows.getD (named (m.withExceptions names) rows).raised.locals = rows.getD m.locals := by
  obtain ⟨flags, name, descriptor, exceptions, code, attributes⟩ := m
  cases rows <;> cases code <;> exact ⟨rfl, rfl⟩

/-- Resolving a method again, with room for its local variables, gives it back and leaves the same
injector. -/
theorem Resolves.again {inj inj' : Injector} {owner : BinaryName} {m m' : Method}
    {names : List BinaryName} {d : MethodDescriptor} (h : Resolves inj owner m names d m' inj') :
    Resolves inj owner m'.raised names d m'.raised inj' := by
  obtain rfl := h.method
  have halike := (alike_named m names (inj.rowsOf owner m d)).raised
  obtain ⟨hmethod, hlocals⟩ := named_again m names (inj.rowsOf owner m d)
  refine ⟨?_, halike.descriptor ▸ h.descriptor, ?_, ?_, ?_⟩
  · have hd := h.declares
    rw [halike.entryFor_eq]
    generalize (inj.entryFor owner m).map (·.exceptions) = mapped at hd ⊢
    cases mapped with
    | none => cases inj.rowsOf owner m d <;> rfl
    | some text => exact hd
  · intro parameters hp
    rw [halike.namesOf_eq] at hp
    rw [halike.argumentNames_eq, halike.argumentTypes_eq]
    exact h.counted parameters hp
  · rw [halike.rowsOf_eq, hmethod]
  · rw [halike.namesOf_eq, halike.keyText_eq, halike.rowsOf_eq, hlocals]
    exact h.injector

/-- A method stays filed when it is resolved. -/
theorem Resolves.filed {inj inj' : Injector} {owner : BinaryName} {m m' : Method}
    {names : List BinaryName} {d : MethodDescriptor} (h : Resolves inj owner m names d m' inj')
    {pool : ConstantPool} (hm : m.Filed pool) : m'.Filed pool := by
  rw [← h.method]
  cases inj.rowsOf owner m d with
  | none => exact hm.withExceptions names
  | some rows => exact (hm.withExceptions names).replaceLocals rows

end Injector

end MethodMetadata
