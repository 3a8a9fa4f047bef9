import MethodMetadata.Proofs.Resolution
import MethodMetadata.Proofs.SignatureKeys

/-! Why a method cannot be resolved: its descriptor is rejected, the mapping has more or fewer names
than the method has parameters, or an exception in it is no name. A method that is refused stays as
it was, and so does the injector. -/
namespace MethodMetadata.Injector

variable {inj : Injector} {owner : BinaryName} {m : Method} {mapped : Option String}
  {e : InjectionError}

/-- The errors with which the argument names of a method are refused. The receiver counts as an
argument, and no mapping names it. -/
inductive RefusesNames (m : Method) (mapped : Option String) : InjectionError → Prop
  | badDescriptor {fault : DescriptorError}
      (rejected : MethodDescriptor.parse m.descriptor = .error fault) :
      RefusesNames m mapped (.classFile (.badDescriptor s!"'{m.descriptor}': {fault.message}"))
  | argumentCount {d : MethodDescriptor} {text : String}
      (accepted : MethodDescriptor.parse m.descriptor = .ok d) (given : mapped = some text)
      (miscounted : (CommaList.split text).length ≠ d.parameters.length) :
      RefusesNames m mapped (.argumentCount (d.parameters.length + m.receiverCount)
        ((CommaList.split text).length + m.receiverCount))

/-- The error with which mapped exceptions are refused. It tells of the first that is no name. -/
inductive RefusesExceptions (mapped : Option String) : InjectionError → Prop
  | badName {text : String} {fault : NameError} (given : mapped = some text)
      (first : (CommaList.split text).findSome? (fun item => binaryFault? item.toList) =
        some fault) : RefusesExceptions mapped (.classFile (.badName fault.message))

private theorem refuses_of_resolveParameters
    (h : (inj.resolveParameters owner m mapped).result = .error e) :
    RefusesNames m mapped e ∧ (inj.resolveParameters owner m mapped).state = (inj, m) := by
  unfold resolveParameters at h ⊢
  cases hd : MethodDescriptor.ofText m.descriptor with
  | error cause =>
    obtain ⟨fault, hrejected, rfl⟩ := mapError_eq_error_iff.mp hd
    rw [hd] at h
    obtain rfl := Except.error.inj h
    exact ⟨.badDescriptor hrejected, rfl⟩
  | ok d =>
    simp only [hd] at h ⊢
    rcases hp : inj.parameterNames owner m d.parameters.length mapped with ⟨_ | parameters, index⟩
    · rw [hp] at h
      cases h
    · simp only [hp, Method.length_argumentNames_eq_iff] at h ⊢
      split at h
      next => cases h
      next hcount =>
        rw [if_neg hcount]
        -- The index is set before the names are counted, but generated ones always suit.
        rcases parameterNames_cases hp with ⟨text, rfl, rfl, rfl⟩ | ⟨-, rfl⟩
        · obtain rfl := Except.error.inj h
          rw [Method.length_argumentNames, Method.length_argumentTypes]
          exact ⟨.argumentCount (MethodDescriptor.ofText_eq_ok_iff.mp hd) rfl hcount, rfl⟩
        · exact absurd (NameStem.length_names _ _ _) hcount

private theorem resolveParameters_of_refuses (h : RefusesNames m mapped e) :
    (inj.resolveParameters owner m mapped).result = .error e := by
  unfold resolveParameters
  cases h with
  | badDescriptor rejected =>
    have hd : MethodDescriptor.ofText m.descriptor = .error _ :=
      mapError_eq_error_iff.mpr ⟨_, rejected, rfl⟩
    rw [hd]
  | argumentCount accepted given miscounted =>
    subst given
    rw [MethodDescriptor.ofText_eq_ok_iff.mpr accepted]
    simp only [parameterNames, Method.length_argumentNames_eq_iff, if_neg miscounted]
    rw [Method.length_argumentNames, Method.length_argumentTypes]

/-- Names are resolved with an error exactly if they are refused. -/
theorem resolveParameters_eq_error_iff :
    (inj.resolveParameters owner m mapped).result = .error e ↔ RefusesNames m mapped e :=
  ⟨fun h => (refuses_of_resolveParameters h).1, resolveParameters_of_refuses⟩

/-- Names that are refused leave the method and the injector alone. -/
theorem state_resolveParameters_of_error
    (h : (inj.resolveParameters owner m mapped).result = .error e) :
    (inj.resolveParameters owner m mapped).state = (inj, m) :=
  (refuses_of_resolveParameters h).2

private theorem resolveParameters_ne_argumentCount (expected found : Nat) :
    (inj.resolveParameters owner m none).result ≠ .error (.argumentCount expected found) := by
  intro h
  cases resolveParameters_eq_error_iff.mp h with
  | argumentCount _ given _ => cases given

private theorem mapExceptions_eq_error_iff {text : String} :
    mapExceptions m text = .error e ↔ ∃ fault,
      (CommaList.split text).findSome? (fun item => binaryFault? item.toList) = some fault ∧
        e = .classFile (.badName fault.message) := by
  have hfault (item : String) : failure? (BinaryName.ofString item) = binaryFault? item.toList :=
    Option.ext fun _ => failure?_eq_some_iff.trans BinaryName.ofString_eq_error_iff
  have hmap (fault : NameError) :
      (CommaList.split text).mapM BinaryName.ofString = .error fault ↔ _ :=
    mapM_eq_error_iff_findSome?
  simp only [hfault] at hmap
  simp only [← hmap]
  unfold mapExceptions
  split
  next names he => simp [he]
  next fault he => simp [he, eq_comm]

private theorem resolveExceptions_eq_error_iff :
    (resolveExceptions m mapped).result = .error e ↔ RefusesExceptions mapped e := by
  cases mapped with
  | none => exact ⟨nofun, nofun⟩
  | some text =>
    have hresult : (resolveExceptions m (some text)).result = .error e ↔
        mapExceptions m text = .error e := by
      cases he : mapExceptions m text <;> simp [resolveExceptions, he]
    rw [hresult, mapExceptions_eq_error_iff]
    constructor
    · rintro ⟨fault, hfirst, rfl⟩
      exact .badName rfl hfirst
    · rintro ⟨given, first⟩
      cases given
      exact ⟨_, first, rfl⟩

private theorem state_resolveExceptions_of_error
    (h : (resolveExceptions m mapped).result = .error e) :
    (resolveExceptions m mapped).state = m := by
  unfold resolveExceptions at h ⊢
  split
  next => rfl
  next text =>
    dsimp only at h ⊢
    split
    next made he =>
      rw [he] at h
      cases h
    next => rfl

private theorem exists_refusesExceptions_iff :
    (∃ e, RefusesExceptions mapped e) ↔ ∃ text, mapped = some text ∧
      ∃ item ∈ CommaList.split text, ¬∃ name : BinaryName, name.text = item := by
  have hfaulty (text : String) :
      (∃ fault, (CommaList.split text).findSome? (fun item => binaryFault? item.toList) =
          some fault) ↔
        ∃ item ∈ CommaList.split text, ¬∃ name : BinaryName, name.text = item := by
    rw [← Option.isSome_iff_exists, List.findSome?_isSome_iff]
    simp only [BinaryName.exists_text_eq_iff, Option.isSome_iff_ne_none, ne_eq]
  simp only [← hfaulty]
  constructor
  · rintro ⟨_, given, first⟩
    exact ⟨_, given, _, first⟩
  · rintro ⟨text, given, fault, first⟩
    exact ⟨_, .badName given first⟩

/-- Resolving fails for these reasons only, never for names that are generated, and whatever fails
has changed nothing. -/
theorem resolve_eq_error_iff_refuses (inj : Injector) (owner : BinaryName) (m : Method)
    (mapped : Option String) :
    (∀ e, (inj.resolveParameters owner m mapped).result = .error e ↔ RefusesNames m mapped e) ∧
    (∀ expected found,
      (inj.resolveParameters owner m none).result ≠ .error (.argumentCount expected found)) ∧
    (∀ e, (resolveExceptions m mapped).result = .error e ↔ RefusesExceptions mapped e) ∧
    ((∃ e, (resolveExceptions m mapped).result = .error e) ↔ ∃ text, mapped = some text ∧
      ∃ item ∈ CommaList.split text, ¬∃ name : BinaryName, name.text = item) ∧
    (∀ e, (inj.resolveParameters owner m mapped).result = .error e →
      (inj.resolveParameters owner m mapped).state = (inj, m)) ∧
    ∀ e, (resolveExceptions m mapped).result = .error e →
      (resolveExceptions m mapped).state = m := by
  refine ⟨fun e => resolveParameters_eq_error_iff, resolveParameters_ne_argumentCount,
    fun e => resolveExceptions_eq_error_iff, ?_, fun e => state_resolveParameters_of_error,
    fun e => state_resolveExceptions_of_error⟩
  simp only [resolveExceptions_eq_error_iff]
  exact exists_refusesExceptions_iff

def sizedConstructor : Method :=
  ⟨0x0001, .constructor, "(I)V", [.object], none, []⟩

/-- Two names for its one parameter, and the second is not that of a class. -/
theorem resolve_eq_error_iff_refuses_sized :
    let inj : Injector := new { managedNamespace := "java/", initialIndex := 5 } MappingTable.empty
    ((inj.resolveParameters .object sizedConstructor (some "size,.size")).result =
        .error (.argumentCount 2 3) ∧
      (inj.resolveParameters .object sizedConstructor (some "size,.size")).state =
        (inj, sizedConstructor)) ∧
    (resolveExceptions sizedConstructor (some "size,.size")).result = .error
        (.classFile (.badName "Unqualified name '.size' contains an illegal character")) ∧
      (resolveExceptions sizedConstructor (some "size,.size")).state = sizedConstructor := by
  intro inj
  obtain ⟨hnames, -, hexceptions, -, hkept, hkept'⟩ :=
    resolve_eq_error_iff_refuses inj .object sizedConstructor (some "size,.size")
  have hparsed : MethodDescriptor.parse sizedConstructor.descriptor = .ok ⟨[.base .int], none⟩ := by
    decide
  have hn := (hnames _).mpr (.argumentCount hparsed rfl (by decide))
  have hfirst : (CommaList.split "size,.size").findSome? (fun item => binaryFault? item.toList) =
      some (.illegalCharacter ".size") := by decide
  have he := (hexceptions _).mpr (.badName rfl hfirst)
  exact ⟨⟨hn, hkept _ hn⟩, he, hkept' _ he⟩

end MethodMetadata.Injector
