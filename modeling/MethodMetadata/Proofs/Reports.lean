import MethodMetadata.Proofs.Injection
import MethodMetadata.Proofs.MappingTables
import MethodMetadata.Proofs.SignatureKeys

/-! What methods tell the output table. Every entry of the table is what some method with its key
came to, and the names in it were mapped, generated or kept. -/
namespace MethodMetadata

namespace Injector

variable {inj : Injector} {owner : BinaryName} {m : Method} {d : MethodDescriptor}

/-- The names that are told of a method: those that its parameters are to get, or else those of its
local variables. -/
def toldNames (inj : Injector) (owner : BinaryName) (m : Method) (d : MethodDescriptor) :
    List String :=
  ((inj.namesOf owner m d).1.getD (m.locals.map (·.name))).filter (· ≠ UnqualifiedName.this.text)

def told (inj : Injector) (owner : BinaryName) (m : Method) (d : MethodDescriptor) : MappingEntry :=
  ⟨((inj.entryFor owner m).map (·.exceptions)).getD (declared m),
    some (if inj.manages owner then CommaList.join (inj.toldNames owner m d) else "")⟩

/-- No names are given to parameters exactly if none are mapped and none are generated. -/
theorem namesOf_eq_none_iff : (inj.namesOf owner m d).1 = none ↔
    (inj.entryFor owner m).bind (·.parameters) = none ∧ inj.generates = false := by
  rw [namesOf_fst]
  cases (inj.entryFor owner m).bind (·.parameters) with
  | some text => simp
  | none => simp [generates]

/-- The names that parameters are to get are mapped or generated. -/
theorem namesOf_cases {parameters : List String} (h : (inj.namesOf owner m d).1 = some parameters) :
    (∃ text, (inj.entryFor owner m).bind (·.parameters) = some text ∧
        parameters = CommaList.split text) ∨
      (inj.entryFor owner m).bind (·.parameters) = none ∧
        parameters.length = d.parameters.length ∧
        ∀ name ∈ parameters, NameStem.Generated name := by
  rcases parameterNames_cases (Prod.ext h rfl) with ⟨text, hp, rfl, -⟩ | ⟨hp, rfl⟩
  · exact .inl ⟨text, hp, rfl⟩
  · refine .inr ⟨hp, NameStem.length_names _ _ _, fun name hn => ?_⟩
    obtain ⟨slot, -, rfl⟩ := List.mem_map.mp hn
    exact NameStem.generated_choose _ _ _ slot

/-- Names that parameters are to get are told if none is that of the receiver. -/
theorem toldNames_eq {parameters : List String} (hp : (inj.namesOf owner m d).1 = some parameters)
    (h : ∀ name ∈ parameters, name ≠ UnqualifiedName.this.text) :
    inj.toldNames owner m d = parameters := by
  rw [toldNames, hp, Option.getD_some]
  exact List.filter_eq_self.mpr fun name hn => decide_eq_true (h name hn)

theorem map_name_argumentTable (m : Method) {names types : List String}
    (h : names.length = types.length) : (m.argumentTable names types).map (·.name) = names := by
  have hfst : ((names.zip types).zipIdx).map (fun e => e.1.1) = names := by
    rw [← Function.comp_def Prod.fst Prod.fst, ← List.map_map, List.zipIdx_map_fst,
      List.map_fst_zip (Nat.le_of_eq h)]
  rw [Method.argumentTable, List.map_map]
  exact hfst

private theorem filter_argumentNames (m : Method) (parameters : List String) :
    (m.argumentNames parameters).filter (· ≠ UnqualifiedName.this.text) =
      parameters.filter (· ≠ UnqualifiedName.this.text) := by
  unfold Method.argumentNames
  cases m.isStatic <;> simp

private theorem report_rowsOf (h : ∀ parameters ∈ (inj.namesOf owner m d).1,
      (m.argumentNames parameters).length = (m.argumentTypes owner d).length) :
    inj.report owner ((inj.rowsOf owner m d).getD m.locals) =
      if inj.manages owner then CommaList.join (inj.toldNames owner m d) else "" := by
  unfold report reported toldNames rowsOf
  cases hn : (inj.namesOf owner m d).1 with
  | none => rfl
  | some parameters =>
    have hl := h parameters hn
    simp only [Option.map_some, Option.getD_some, argumentRows, map_name_argumentTable m hl,
      filter_argumentNames]

private theorem declared_withExceptions {names : List BinaryName}
    (h : Declares ((inj.entryFor owner m).map (·.exceptions)) m names) :
    declared (m.withExceptions names) =
      ((inj.entryFor owner m).map (·.exceptions)).getD (declared m) := by
  generalize (inj.entryFor owner m).map (·.exceptions) = mapped at h ⊢
  cases mapped with
  | none =>
    obtain rfl : names = m.exceptions := h
    rfl
  | some text =>
    have hnames : names.map (·.text) = CommaList.split text := h
    exact (congrArg CommaList.join hnames).trans (CommaList.join_of_split text)

theorem output_collect (inj : Injector) (key exceptions parameters : String) :
    (inj.collect key exceptions parameters).output =
      if exceptions = "" ∧ parameters = "" then inj.output
      else inj.output.insert key ⟨exceptions, some parameters⟩ := by
  unfold collect
  by_cases hsilent : exceptions = "" ∧ parameters = ""
  · simp [hsilent]
  · rw [if_neg hsilent, if_neg (by simpa using hsilent)]

/-- A method has an entry once it is collected, unless there is nothing to tell. -/
theorem get?_collect (inj : Injector) (key other exceptions parameters : String) :
    (inj.collect key exceptions parameters).output.get? other =
      if key = other ∧ (⟨exceptions, some parameters⟩ : MappingEntry) ≠ ⟨"", some ""⟩ then
        some ⟨exceptions, some parameters⟩
      else inj.output.get? other := by
  rw [output_collect]
  by_cases hsilent : exceptions = "" ∧ parameters = ""
  · simp [hsilent]
  · rw [if_neg hsilent, MappingTable.get?_insert]
    simp [hsilent]

/-- A method that is resolved leaves what it tells under its key, if it tells anything. -/
theorem Resolves.get?_output {inj' : Injector} {names : List BinaryName} {m' : Method}
    (h : Resolves inj owner m names d m' inj') (key : String) :
    inj'.output.get? key =
      if keyText owner m = key ∧ inj.told owner m d ≠ ⟨"", some ""⟩ then some (inj.told owner m d)
      else inj.output.get? key := by
  rw [← h.injector, get?_collect, declared_withExceptions h.declares, report_rowsOf h.counted]
  rfl

private theorem output_resolveParameters (inj : Injector) (owner : BinaryName) (m : Method)
    (mapped : Option String) :
    (inj.resolveParameters owner m mapped).state.1.output = inj.output := by
  unfold resolveParameters
  split
  · rfl
  · split
    · rfl
    · dsimp only
      split <;> rfl

private theorem output_of_error {e : InjectionError}
    (h : (processMethod owner inj m).result = .error e) :
    (processMethod owner inj m).state.output = inj.output := by
  unfold processMethod at h ⊢
  dsimp only at h ⊢
  split
  · rfl
  next hd =>
    rw [hd] at h
    dsimp only at h
    split
    · exact output_resolveParameters inj owner _ _
    next hp =>
      rw [hp] at h
      cases h

/-- An entry that a method leaves when it is resolved. -/
structure Leaves (inj : Injector) (owner : BinaryName) (m : Method) (d : MethodDescriptor)
    (key : String) (entry : MappingEntry) : Prop where
  resolves : ∃ names m' inj', Resolves inj owner m names d m' inj'
  keyed : keyText owner m = key
  tells : inj.told owner m d = entry
  speaks : entry ≠ ⟨"", some ""⟩

/-- The key of an entry tells the class of the method that leaves it. -/
theorem Leaves.ownerText_eq {key : String} {entry : MappingEntry}
    (h : inj.Leaves owner m d key entry) : SignatureKey.ownerText key = owner.text := by
  rw [← h.keyed]
  exact SignatureKey.ownerText_text _

private theorem get?_processMethod {key : String} {entry : MappingEntry}
    (h : (processMethod owner inj m).state.output.get? key = some entry) :
    inj.output.get? key = some entry ∨ ∃ d, inj.Leaves owner m d key entry := by
  cases hr : (processMethod owner inj m).result with
  | error e =>
    rw [output_of_error hr] at h
    exact .inl h
  | ok m' =>
    obtain ⟨names, d, hres⟩ := processMethod_eq_ok_iff.mp ⟨hr, rfl⟩
    rw [hres.get?_output] at h
    split at h
    next hs => exact .inr ⟨d, ⟨names, m', _, hres⟩, hs.1, Option.some.inj h, Option.some.inj h ▸ hs.2⟩
    next => exact .inl h

/-- Every entry was there before the methods of a class, or is left by one in the course of the
job. -/
theorem get?_processMethods {c : Class} {key : String} {entry : MappingEntry}
    (h : (inj.processMethods c).state.output.get? key = some entry) :
    inj.output.get? key = some entry ∨
      ∃ m ∈ c.methods, ∃ mid d, SameJob inj mid ∧ mid.Leaves c.name m d key entry := by
  let P (state : Injector) : Prop := SameJob inj state ∧
    ∀ key entry, state.output.get? key = some entry → inj.output.get? key = some entry ∨
      ∃ m ∈ c.methods, ∃ mid d, SameJob inj mid ∧ mid.Leaves c.name m d key entry
  have hstep (state : Injector) (m : Method) (hm : m ∈ c.methods) (hs : P state) :
      P (processMethod c.name state m).state := by
    refine ⟨sameJob_processMethod hs.1 c.name m, fun key entry hk => ?_⟩
    rcases get?_processMethod hk with hk | ⟨d, hd⟩
    · exact hs.2 key entry hk
    · exact .inr ⟨m, hm, state, d, hs.1, hd⟩
  have hrun : P (inj.processMethods c).state :=
    Pass.run_invariant_of_mem hstep ⟨⟨rfl, rfl⟩, fun _ _ hk => .inl hk⟩
  exact hrun.2 key entry h

theorem SameJob.entryFor_eq {mid : Injector} (h : SameJob inj mid) :
    mid.entryFor owner m = inj.entryFor owner m := by
  rw [entryFor, entryFor, h.2]

theorem SameJob.trans {inj₁ inj₂ inj₃ : Injector} (h : SameJob inj₁ inj₂)
    (h' : SameJob inj₂ inj₃) : SameJob inj₁ inj₃ :=
  ⟨h'.1.trans h.1, h'.2.trans h.2⟩

/-- Only the methods of a class that can be parsed change the injector. -/
theorem state_processClass (inj : Injector) (bytes : List UInt8) :
    (inj.processClass bytes).state = match Class.parse bytes with
      | .error _ => inj
      | .ok c => (inj.processMethods c).state := by
  unfold processClass
  cases Class.parse bytes <;> rfl

theorem sameJob_processClass (inj : Injector) (bytes : List UInt8) :
    SameJob inj (inj.processClass bytes).state := by
  rw [state_processClass]
  cases Class.parse bytes with
  | error e => exact ⟨rfl, rfl⟩
  | ok c => exact sameJob_run inj c.name c.methods

/-- Every entry was there before a class, or is left by one of its methods. -/
theorem get?_processClass {bytes : List UInt8} {key : String} {entry : MappingEntry}
    (h : (inj.processClass bytes).state.output.get? key = some entry) :
    inj.output.get? key = some entry ∨ ∃ c, Class.parse bytes = .ok c ∧
      ∃ m ∈ c.methods, ∃ mid d, SameJob inj mid ∧ mid.Leaves c.name m d key entry := by
  rw [state_processClass] at h
  cases hc : Class.parse bytes with
  | error e =>
    rw [hc] at h
    exact .inl h
  | ok c =>
    rw [hc] at h
    exact (get?_processMethods h).imp_right fun hleft => ⟨c, rfl, hleft⟩

theorem output_new_get? (settings : Settings) (mappings : MappingTable) (key : String) :
    (new settings mappings).output.get? key = none :=
  MappingTable.get?_empty key

/-- The injector when it has processed classes one after the other, with or without success. -/
def after (inj : Injector) (classes : List (List UInt8)) : Injector :=
  classes.foldl (fun inj bytes => (inj.processClass bytes).state) inj

/-- Processing classes changes nothing but the output and the index. -/
theorem sameJob_after (inj : Injector) (classes : List (List UInt8)) :
    SameJob inj (inj.after classes) := by
  induction classes generalizing inj with
  | nil => exact ⟨rfl, rfl⟩
  | cons bytes classes ih => exact (sameJob_processClass inj bytes).trans (ih _)

/-- Every entry was there before a job, or is left by a method of one of its classes. -/
theorem get?_after {classes : List (List UInt8)} {key : String} {entry : MappingEntry}
    (h : (inj.after classes).output.get? key = some entry) :
    inj.output.get? key = some entry ∨ ∃ bytes ∈ classes, ∃ c, Class.parse bytes = .ok c ∧
      ∃ m ∈ c.methods, ∃ mid d, SameJob inj mid ∧ mid.Leaves c.name m d key entry := by
  induction classes generalizing inj with
  | nil => exact .inl h
  | cons bytes classes ih =>
    rcases ih h with h | ⟨other, ho, c, hc, m, hm, mid, d, hjob, hleft⟩
    · exact (get?_processClass h).imp_right fun hleft => ⟨bytes, List.mem_cons_self, hleft⟩
    · exact .inr ⟨other, List.mem_cons_of_mem _ ho, c, hc, m, hm, mid, d,
        (sameJob_processClass inj bytes).trans hjob, hleft⟩

/-- What holds of all that methods tell goes on to hold of the output table. -/
theorem forall_output_after {Q : MappingEntry → Prop} {classes : List (List UInt8)}
    (ho : ∀ key, ∀ entry ∈ inj.output.get? key, Q entry)
    (h : ∀ bytes ∈ classes, ∀ c, Class.parse bytes = .ok c → ∀ m ∈ c.methods, ∀ mid d,
      SameJob inj mid → Q (mid.told c.name m d)) :
    ∀ key, ∀ entry ∈ (inj.after classes).output.get? key, Q entry := by
  intro key entry he
  rcases get?_after he with he | ⟨bytes, hb, c, hc, m, hm, mid, d, hjob, hleft⟩
  · exact ho key entry he
  · exact hleft.tells ▸ h bytes hb c hc m hm mid d hjob

end Injector

end MethodMetadata
