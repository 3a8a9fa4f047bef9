import MethodMetadata.Proofs.Reports

/-! Entries of the mapping table that come back in the output table. A method whose exceptions and
parameters are both mapped tells them as they are written, whatever it had before. -/
namespace MethodMetadata.Injector

variable {inj : Injector} {owner : BinaryName} {m : Method} {d : MethodDescriptor}

private theorem told_of_mapped {exceptions parameters : String} (hown : inj.manages owner = true)
    (hentry : inj.entryFor owner m = some ⟨exceptions, some parameters⟩)
    (hthis : "this" ∉ CommaList.split parameters) :
    inj.told owner m d = ⟨exceptions, some parameters⟩ := by
  have hnames : (inj.namesOf owner m d).1 = some (CommaList.split parameters) := by
    rw [namesOf_fst, hentry]
    rfl
  have hother : ∀ name ∈ CommaList.split parameters, name ≠ UnqualifiedName.this.text := by
    rintro name hn rfl
    exact hthis hn
  rw [told, hentry, toldNames_eq hnames hother, if_pos hown, CommaList.join_of_split]
  rfl

/-- If all methods with a key tell the same, it is what stands under the key in the end. -/
theorem get?_of_runs_told {last : Injector} {items values : List Method}
    (h : Pass.Runs (processMethod owner) inj items values last) {key : String}
    {entry : MappingEntry} (hspeaks : entry ≠ ⟨"", some ""⟩)
    (htold : ∀ mid, SameJob inj mid → ∀ m ∈ items, keyText owner m = key →
      ∀ d, mid.told owner m d = entry)
    (hk : inj.output.get? key = some entry ∨ ∃ m ∈ items, keyText owner m = key) :
    last.output.get? key = some entry := by
  induction h with
  | nil =>
    rcases hk with hk | ⟨m, hm, -⟩
    · exact hk
    · cases hm
  | @cons inj last m m' items values head tail ih =>
    obtain ⟨names, d, hres⟩ := processMethod_eq_ok_iff.mp ⟨head, rfl⟩
    have hjob : SameJob inj (processMethod owner inj m).state :=
      sameJob_processMethod ⟨rfl, rfl⟩ owner m
    refine ih (fun mid hmid m₁ hm => ?_) ?_
    · exact htold mid (hjob.trans hmid) m₁ (List.mem_cons_of_mem _ hm)
    · rw [hres.get?_output]
      by_cases hkey : keyText owner m = key
      · -- This method puts the entry there, or there again.
        have hm := htold inj ⟨rfl, rfl⟩ m List.mem_cons_self hkey d
        rw [hm, if_pos ⟨hkey, hspeaks⟩]
        exact .inl rfl
      · rw [if_neg fun he => hkey he.1]
        refine hk.imp_right ?_
        rintro ⟨m₁, hm, hkey₁⟩
        rcases List.mem_cons.mp hm with rfl | hm
        · exact absurd hkey₁ hkey
        · exact ⟨m₁, hm, hkey₁⟩

/-- A managed class that is processed leaves the entry of each of its methods whose exceptions and
parameters are mapped, unless both are empty or a parameter is named as the receiver. Methods with
one key have one entry, so that they do not disturb each other. -/
theorem get?_processClass_mapped {bytes made : List UInt8} {c : Class}
    (hc : Class.parse bytes = .ok c) (h : (inj.processClass bytes).result = .ok made)
    (hown : inj.manages c.name = true) (hm : m ∈ c.methods) {exceptions parameters : String}
    (hentry : inj.mappings.get? (keyText c.name m) = some ⟨exceptions, some parameters⟩)
    (hspeaks : exceptions ≠ "" ∨ parameters ≠ "")
    (hthis : "this" ∉ CommaList.split parameters) :
    (inj.processClass bytes).state.output.get? (keyText c.name m) =
      some ⟨exceptions, some parameters⟩ := by
  obtain ⟨_, edited, hc', he, hstate, -⟩ := processClass_eq_ok_iff.mp ⟨h, rfl⟩
  obtain rfl := Except.ok.inj (hc.symm.trans hc')
  obtain ⟨methods, -, hruns⟩ := runs_of_processMethods he
  rw [← hstate]
  refine get?_of_runs_told hruns (fun hsilent => ?_) (fun mid hmid m₁ _ hkey d => ?_)
    (.inr ⟨m, hm, rfl⟩)
  · cases hsilent
    exact hspeaks.elim (absurd rfl) (absurd rfl)
  · refine told_of_mapped ((hmid.manages_eq c.name).trans hown) ?_ hthis
    rw [hmid.entryFor_eq, entryFor, hkey, hentry]

/-- Two parameters with empty names, and a method without a body. -/
def emptyNames : MappingTable :=
  (MappingTable.empty.insert "a/Queue.<init>(JLb/Base;)V" ⟨"", some ","⟩).insert
    "a/Queue.func_7_a(ID)V" ⟨"a|b,b/Fault", some "é,this "⟩

theorem get?_processClass_mapped_queue :
    let inj := new queueSettings emptyNames
    ∃ c made, Class.parse Assembly.queueBytes = .ok c ∧
      (inj.processClass Assembly.queueBytes).result = .ok made ∧ inj.manages c.name = true ∧
      (∃ m ∈ c.methods, inj.mappings.get? (keyText c.name m) = some ⟨"", some ","⟩ ∧
        "this" ∉ CommaList.split "," ∧
        (inj.processClass Assembly.queueBytes).state.output.get? (keyText c.name m) =
          some ⟨"", some ","⟩) ∧
      ∃ m ∈ c.methods, m.code = none ∧
        inj.mappings.get? (keyText c.name m) = some ⟨"a|b,b/Fault", some "é,this "⟩ ∧
        "this" ∉ CommaList.split "é,this " ∧
        (inj.processClass Assembly.queueBytes).state.output.get? (keyText c.name m) =
          some ⟨"a|b,b/Fault", some "é,this "⟩ := by
  intro inj
  have hmade : (inj.processClass Assembly.queueBytes).result.toOption.isSome := by decide +kernel
  have hclass : ∀ c ∈ (Class.parse Assembly.queueBytes).toOption, inj.manages c.name = true ∧
      (∃ m ∈ c.methods, inj.mappings.get? (keyText c.name m) = some ⟨"", some ","⟩) ∧
      ∃ m ∈ c.methods, m.code = none ∧
        inj.mappings.get? (keyText c.name m) = some ⟨"a|b,b/Fault", some "é,this "⟩ := by
    decide +kernel
  obtain ⟨made, hmade⟩ := isSome_toOption_iff.mp hmade
  obtain ⟨c, -, hc, -⟩ := processClass_eq_ok_iff.mp ⟨hmade, rfl⟩
  obtain ⟨hown, ⟨m, hm, hentry⟩, m₁, hm₁, hcode, hentry₁⟩ := hclass c (toOption_eq_some_iff.mpr hc)
  have hthis : "this" ∉ CommaList.split "," := by decide
  have hthis₁ : "this" ∉ CommaList.split "é,this " := by decide
  exact ⟨c, made, hc, hmade, hown,
    ⟨m, hm, hentry, hthis,
      get?_processClass_mapped hc hmade hown hm hentry (.inr (by decide)) hthis⟩,
    m₁, hm₁, hcode, hentry₁, hthis₁,
    get?_processClass_mapped hc hmade hown hm₁ hentry₁ (.inr (by decide)) hthis₁⟩

end MethodMetadata.Injector
