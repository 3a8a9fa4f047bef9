import MethodMetadata.Proofs.Refusals
import MethodMetadata.Proofs.Reports

/-! Where processing a class fails, and what is left then. The first method that cannot be resolved
is named, and only the methods in front of it have changed the injector. -/
namespace MethodMetadata.Injector

variable {inj mid : Injector} {owner : BinaryName} {m : Method} {e : InjectionError}

/-- What a method fails with: its exceptions are looked at first, and its argument names once the
exceptions are resolved. -/
inductive Fails (inj : Injector) (owner : BinaryName) (m : Method) (e : InjectionError) : Prop
  | exceptions
      (failed : (resolveExceptions m ((inj.entryFor owner m).map (·.exceptions))).result = .error e)
  | parameters {declared : String}
      (resolved : (resolveExceptions m ((inj.entryFor owner m).map (·.exceptions))).result =
        .ok declared)
      (failed : (inj.resolveParameters owner
        (resolveExceptions m ((inj.entryFor owner m).map (·.exceptions))).state
        ((inj.entryFor owner m).bind (·.parameters))).result = .error e)

private theorem Fails.of_sameJob (h : SameJob inj mid) (hf : inj.Fails owner m e) :
    mid.Fails owner m e := by
  have hentry : inj.entryFor owner m = mid.entryFor owner m := h.entryFor_eq.symm
  cases hf with
  | exceptions failed => exact .exceptions (hentry ▸ failed)
  | parameters resolved failed =>
    rw [hentry] at resolved failed
    have hrefuses := resolveParameters_eq_error_iff.mp failed
    exact .parameters resolved (resolveParameters_eq_error_iff.mpr hrefuses)

/-- Whether a method fails, and with what, is decided by what the job is, and not by the index or the
output table. -/
theorem SameJob.fails_iff (h : SameJob inj mid) : mid.Fails owner m e ↔ inj.Fails owner m e :=
  ⟨.of_sameJob ⟨h.1.symm, h.2.symm⟩, .of_sameJob h⟩

/-- A method that fails is named, and leaves the injector as it was. -/
theorem Fails.processMethod (h : inj.Fails owner m e) :
    (processMethod owner inj m).result = .error (.inMethod (keyText owner m) e) ∧
      (processMethod owner inj m).state = inj := by
  unfold Injector.processMethod
  cases h with
  | exceptions failed =>
    unfold entryFor at failed
    simp only [failed, and_self]
  | parameters resolved failed =>
    have hkept := congrArg Prod.fst (state_resolveParameters_of_error failed)
    unfold entryFor at resolved failed hkept
    simp only [resolved, failed, true_and]
    exact hkept

private theorem processMethod_eq_error_iff {cause : InjectionError} :
    (processMethod owner inj m).result = .error cause ↔
      ∃ e, inj.Fails owner m e ∧ cause = .inMethod (keyText owner m) e := by
  refine ⟨fun h => ?_, fun ⟨e, hf, hcause⟩ => hcause ▸ hf.processMethod.1⟩
  have hfails : ∃ e, inj.Fails owner m e := by
    cases hx : (resolveExceptions m ((inj.entryFor owner m).map (·.exceptions))).result with
    | error e => exact ⟨e, .exceptions hx⟩
    | ok declared =>
      cases hp : (inj.resolveParameters owner
          (resolveExceptions m ((inj.entryFor owner m).map (·.exceptions))).state
          ((inj.entryFor owner m).bind (·.parameters))).result with
      | error e => exact ⟨e, .parameters hx hp⟩
      | ok names =>
        unfold processMethod at h
        unfold entryFor at hx hp
        simp only [hx, hp] at h
        cases h
  obtain ⟨e, hf⟩ := hfails
  exact ⟨e, hf, Except.error.inj (h.symm.trans hf.processMethod.1)⟩

private theorem exists_processMethod_of_not_fails (h : ∀ e, ¬inj.Fails owner m e) :
    ∃ m', (processMethod owner inj m).result = .ok m' := by
  cases hr : (processMethod owner inj m).result with
  | ok m' => exact ⟨m', rfl⟩
  | error cause =>
    obtain ⟨e, hf, -⟩ := processMethod_eq_error_iff.mp hr
    exact absurd hf (h e)

/-- The first method of a class that fails, with what it fails, and the methods in front of it. -/
structure FailsAt (inj : Injector) (c : Class) (front : List Method) (m : Method)
    (e : InjectionError) : Prop where
  placed : ∃ rest, c.methods = front ++ m :: rest
  passed : ∀ m' ∈ front, ∀ e', ¬inj.Fails c.name m' e'
  failed : inj.Fails c.name m e

section

variable {last : Injector} {items values : List Method}

private theorem sameJob_of_runs (h : Pass.Runs (processMethod owner) inj items values last) :
    SameJob inj last :=
  (Pass.run_of_runs h).2 ▸ sameJob_run inj owner items

/-- Methods can be resolved one after the other exactly if none of them fails. -/
theorem exists_runs_iff : (∃ values last, Pass.Runs (processMethod owner) inj items values last) ↔
    ∀ m ∈ items, ∀ e, ¬inj.Fails owner m e := by
  constructor
  · rintro ⟨values, last, h⟩
    induction h with
    | nil => nofun
    | @cons inj last m m' items values head tail ih =>
      intro m₁ hm e hf
      rcases List.mem_cons.mp hm with rfl | hm
      · cases head.symm.trans hf.processMethod.1
      · exact ih m₁ hm e ((sameJob_processMethod ⟨rfl, rfl⟩ owner m).fails_iff.mpr hf)
  · intro h
    refine Pass.exists_runs (P := inj.SameJob) (fun _ m _ hs => ?_) (fun _ m hm hs => ?_) ⟨rfl, rfl⟩
    · exact sameJob_processMethod hs owner m
    · exact exists_processMethod_of_not_fails fun e hf => h m hm e (hs.fails_iff.mp hf)

end

/-- The methods in front of the first that fails are resolved, and what they leave is left. -/
theorem FailsAt.processMethods {c : Class} {front : List Method} (h : inj.FailsAt c front m e) :
    (inj.processMethods c).result = .error (.inMethod (keyText c.name m) e) ∧
      ∃ made, Pass.Runs (processMethod c.name) inj front made (inj.processMethods c).state := by
  obtain ⟨made, last, hruns⟩ := exists_runs_iff.mpr h.passed
  obtain ⟨hresult, hstate⟩ := ((sameJob_of_runs hruns).fails_iff.mpr h.failed).processMethod
  obtain ⟨rest, hmethods⟩ := h.placed
  obtain ⟨herror, hlast⟩ := Pass.run_of_runs_error hruns hresult rest
  rw [← hmethods] at herror hlast
  have hleft : (inj.processMethods c).state = last := hlast.trans hstate
  exact ⟨map_eq_error_iff.mpr herror, made, hleft.symm ▸ hruns⟩

private theorem failsAt_of_processMethods {c : Class} {cause : InjectionError}
    (h : (inj.processMethods c).result = .error cause) :
    ∃ front m e, inj.FailsAt c front m e ∧ cause = .inMethod (keyText c.name m) e := by
  have hpass := map_eq_error_iff.mp h
  rcases Pass.run_cases (processMethod c.name) inj c.methods with
    ⟨hnone, -⟩ | ⟨front, m, rest, mid, cause', hmethods, hruns, herror, hfailure, -⟩
  · rw [Pass.result, hnone] at hpass
    cases hpass
  · rw [Pass.result, hfailure] at hpass
    obtain rfl := Except.error.inj hpass
    obtain ⟨e, hf, hcause⟩ := processMethod_eq_error_iff.mp herror
    exact ⟨front, m, e, ⟨⟨rest, hmethods⟩, exists_runs_iff.mp ⟨_, _, hruns⟩,
      (sameJob_of_runs hruns).fails_iff.mp hf⟩, hcause⟩

/-- Bytes that are no class change nothing. A class fails with the first of its methods that fails,
which is named, and leaves what the methods in front of it leave. If no method fails, all of them
are resolved, and only storing the class can fail then. -/
theorem processClass_outcome (inj : Injector) (bytes : List UInt8) :
    (∀ e, Class.parse bytes = .error e →
      (inj.processClass bytes).result = .error (.classFile e) ∧
        (inj.processClass bytes).state = inj) ∧
    ∀ c, Class.parse bytes = .ok c →
      (∀ key e, (inj.processClass bytes).result = .error (.inMethod key e) ↔
        ∃ front m, inj.FailsAt c front m e ∧ keyText c.name m = key) ∧
      (∀ front m e, inj.FailsAt c front m e →
        (inj.processClass bytes).state.Fails c.name m e ∧
          ∃ made, Pass.Runs (processMethod c.name) inj front made
            (inj.processClass bytes).state) ∧
      ((∀ m ∈ c.methods, ∀ e, ¬inj.Fails c.name m e) →
        ∃ methods, Pass.Runs (processMethod c.name) inj c.methods methods
            (inj.processClass bytes).state ∧
          (inj.processClass bytes).result =
            ({ c with methods := methods } : Class).serialize.mapError .classFile) := by
  unfold processClass
  cases Class.parse bytes with
  | error e =>
    refine ⟨fun e' he => ?_, nofun⟩
    obtain rfl := Except.error.inj he
    exact ⟨rfl, rfl⟩
  | ok c =>
    refine ⟨nofun, fun c' hc => ?_⟩
    obtain rfl := Except.ok.inj hc
    refine ⟨fun key e => ?_, fun front m e hf => ?_, fun hall => ?_⟩
    · constructor
      · intro hr
        rcases bind_eq_error_iff.mp hr with herror | ⟨edited, -, hstored⟩
        · obtain ⟨front, m, e', hf, hcause⟩ := failsAt_of_processMethods herror
          cases hcause
          exact ⟨front, m, hf, rfl⟩
        · obtain ⟨fault, -, hfault⟩ := mapError_eq_error_iff.mp hstored
          cases hfault
      · rintro ⟨front, m, hf, rfl⟩
        exact bind_eq_error_iff.mpr (.inl hf.processMethods.1)
    · obtain ⟨made, hruns⟩ := hf.processMethods.2
      exact ⟨(sameJob_of_runs hruns).fails_iff.mpr hf.failed, made, hruns⟩
    · obtain ⟨methods, last, hruns⟩ := exists_runs_iff.mpr hall
      obtain ⟨hresult, hlast⟩ := processMethods_of_runs hruns
      refine ⟨methods, hlast.symm ▸ hruns, ?_⟩
      dsimp only
      rw [hresult]
      rfl

/-- One name too few for the parameters of the second method, and an exception that is no name for
the third. -/
def shortMappings : MappingTable :=
  (MappingTable.empty.insert "a/Queue.func_7_a(ID)V" ⟨"b/Fault", some "id"⟩).insert
    "a/Queue.run([I)V" ⟨".", none⟩

/-- The second method is named, and only the constructor in front of it has used an index and told
its names. -/
theorem processClass_outcome_queue :
    let inj := new { managedNamespace := "a/", initialIndex := 5 } shortMappings
    let outcome := inj.processClass Assembly.queueBytes
    ∃ c front m, Class.parse Assembly.queueBytes = .ok c ∧
      inj.FailsAt c front m (.argumentCount 2 1) ∧
      outcome.result = .error (.inMethod "a/Queue.func_7_a(ID)V" (.argumentCount 2 1)) ∧
      (∃ made, Pass.Runs (processMethod c.name) inj front made outcome.state) ∧
      outcome.state.index = 6 ∧ outcome.state.output.toList =
        [("a/Queue.<init>(JLb/Base;)V", ⟨"b/Fault", some "p_i5_1_,p_i5_2_"⟩)] := by
  intro inj outcome
  have heval : outcome.result =
        .error (.inMethod "a/Queue.func_7_a(ID)V" (.argumentCount 2 1)) ∧
      outcome.state.index = 6 ∧ outcome.state.output.toList =
        [("a/Queue.<init>(JLb/Base;)V", ⟨"b/Fault", some "p_i5_1_,p_i5_2_"⟩)] := by decide +kernel
  have hclass : (Class.parse Assembly.queueBytes).toOption.isSome := by decide +kernel
  obtain ⟨hresult, hindex, houtput⟩ := heval
  obtain ⟨c, hc⟩ := isSome_toOption_iff.mp hclass
  obtain ⟨herror, hleft, -⟩ := (processClass_outcome inj Assembly.queueBytes).2 c hc
  obtain ⟨front, m, hfails, -⟩ := (herror _ _).mp hresult
  exact ⟨c, front, m, hc, hfails, hresult, (hleft front m _ hfails).2, hindex, houtput⟩

end MethodMetadata.Injector
