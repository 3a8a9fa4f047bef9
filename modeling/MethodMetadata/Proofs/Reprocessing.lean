import MethodMetadata.Proofs.Injection

/-! Processing is idempotent. Classes that a job has made, processed by a job like it, come out byte
for byte as they are, and leave the same output and the same index. -/
namespace MethodMetadata.Injector

/-- The attributes that a job makes, class by class, are short enough to be written. -/
def JobFits : Injector → List (List UInt8) → Prop
  | _, [] => True
  | inj, bytes :: rest => inj.BodiesFit bytes ∧ JobFits (inj.processClass bytes).state rest

instance decidableJobFits : (inj : Injector) → (classes : List (List UInt8)) →
    Decidable (inj.JobFits classes)
  | _, [] => inferInstanceAs (Decidable True)
  | inj, bytes :: rest =>
    have := decidableJobFits (inj.processClass bytes).state rest
    inferInstanceAs (Decidable (_ ∧ _))

private theorem runs_again {inj last : Injector} {owner : BinaryName} {methods made : List Method}
    (h : Pass.Runs (processMethod owner) inj methods made last) :
    Pass.Runs (processMethod owner) inj (made.map Method.raised) (made.map Method.raised) last := by
  induction h with
  | nil => exact .nil
  | @cons inj last m m' methods made head tail ih =>
    obtain ⟨names, d, hres⟩ := processMethod_eq_ok_iff.mp ⟨head, rfl⟩
    obtain ⟨hr, hs⟩ := processMethod_eq_ok_iff.mpr ⟨names, d, hres.again⟩
    refine .cons hr ?_
    rw [hs]
    exact ih

/-- A processed class comes out of the same injector as it is, and leaves it in the same state. -/
theorem processClass_again {inj : Injector} {bytes made : List UInt8}
    (h : (inj.processClass bytes).result = .ok made) (hf : inj.BodiesFit bytes) :
    (inj.processClass made).result = .ok made ∧
      (inj.processClass made).state = (inj.processClass bytes).state := by
  obtain ⟨c, _, hc, he', hstate, -⟩ := processClass_eq_ok_iff.mp ⟨h, rfl⟩
  obtain ⟨edited, file, he, hfile, hbytes, -, hparse, -⟩ := parse_processClass hc h hf
  obtain ⟨methods, rfl, hr⟩ := runs_of_processMethods he
  have hagain := Class.toClassFile_reopened hfile
  obtain ⟨hresult, hlast⟩ := processMethods_of_runs
    (c := Class.reopened { c with methods := methods } file) (runs_again hr)
  refine processClass_eq_ok_iff.mpr ⟨_, _, hparse, hresult, hlast.trans hstate, ?_⟩
  exact Class.serialize_eq_ok_iff.mpr ⟨file, hagain, hbytes⟩

/-- A class that is made into few bytes has no attribute that is too long. -/
theorem bodiesFit_of_length_lt {inj : Injector} {bytes made : List UInt8}
    (h : (inj.processClass bytes).result = .ok made) (hl : made.length < 2 ^ 32) :
    inj.BodiesFit bytes := by
  obtain ⟨c, edited, hc, he, -, hmade⟩ := processClass_eq_ok_iff.mp ⟨h, rfl⟩
  obtain ⟨file, hfile, hbytes⟩ := Class.serialize_eq_ok_iff.mp hmade
  intro c' hc' edited' he' file' hfile'
  cases (toOption_eq_some_iff.mp hc').symm.trans hc
  cases (toOption_eq_some_iff.mp he').symm.trans he
  cases (toOption_eq_some_iff.mp hfile').symm.trans hfile
  exact ClassFile.fits_of_toBytes hbytes hl

private theorem runs_job_again {inj last : Injector} {classes made : List (List UInt8)}
    (h : Pass.Runs processClass inj classes made last) (hf : inj.JobFits classes) :
    Pass.Runs processClass inj made made last := by
  induction h with
  | nil => exact .nil
  | @cons inj last bytes out classes made head tail ih =>
    obtain ⟨hfits, hrest⟩ := hf
    obtain ⟨hr, hs⟩ := processClass_again head hfits
    refine .cons hr ?_
    rw [hs]
    exact ih hrest

/-- A whole job on what a job like it has made gives the same classes and ends with the same output
table and the same index. -/
theorem run_processClass_again {settings : Settings} {mappings : MappingTable}
    {classes made : List (List UInt8)}
    (h : (Pass.run processClass (.new settings mappings) classes).result = .ok made)
    (hf : (Injector.new settings mappings).JobFits classes) :
    (Pass.run processClass (.new settings mappings) made).result = .ok made ∧
      (Pass.run processClass (.new settings mappings) made).state =
        (Pass.run processClass (.new settings mappings) classes).state :=
  Pass.run_of_runs (runs_job_again (Pass.runs_of_run h) hf)

/-- The same class twice, whose constructors get names with different indices. -/
theorem run_processClass_again_queue : ∃ made,
    (Pass.run processClass (.new queueSettings .empty)
      [Assembly.queueBytes, Assembly.queueBytes]).result = .ok made ∧
    (Injector.new queueSettings .empty).JobFits [Assembly.queueBytes, Assembly.queueBytes] ∧
    (Pass.run processClass (.new queueSettings .empty) made).result = .ok made ∧
    (Pass.run processClass (.new queueSettings .empty) made).state =
      (Pass.run processClass (.new queueSettings .empty)
        [Assembly.queueBytes, Assembly.queueBytes]).state := by
  have hs : (Pass.run processClass (.new queueSettings .empty)
        [Assembly.queueBytes, Assembly.queueBytes]).result.toOption.isSome ∧
      (Injector.new queueSettings .empty).JobFits [Assembly.queueBytes, Assembly.queueBytes] := by
    decide +kernel
  obtain ⟨hmade, hf⟩ := hs
  obtain ⟨made, hmade⟩ := isSome_toOption_iff.mp hmade
  exact ⟨made, hmade, hf, run_processClass_again hmade hf⟩

end MethodMetadata.Injector
