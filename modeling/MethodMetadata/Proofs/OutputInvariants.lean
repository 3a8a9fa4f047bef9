import MethodMetadata.Proofs.ConstructorIndices

/-! What is true of the injector in the course of any job, whatever bytes it is given and wherever
they fail: entries speak of classes that were given, and the index only grows. -/
namespace MethodMetadata.Injector

variable {inj : Injector} {owner : BinaryName} {m : Method} {d : MethodDescriptor}

/-- An entry that speaks of a method in one of some classes: it says something, its key starts with
the name of the class, and it names no parameters unless the class is managed. -/
structure SpeaksOf (settings : Settings) (classes : List (List UInt8)) (key : String)
    (entry : MappingEntry) : Prop where
  speaks : ∃ names, entry.parameters = some names ∧ (entry.exceptions ≠ "" ∨ names ≠ "")
  owned : ∃ bytes ∈ classes, ∃ c, Class.parse bytes = .ok c ∧
    SignatureKey.ownerText key = c.name.text ∧
    (c.name.isWithin settings.managedNamespace = false → entry.parameters = some "")

private theorem Leaves.speaks_names {key : String} {entry : MappingEntry}
    (h : inj.Leaves owner m d key entry) :
    ∃ names, entry.parameters = some names ∧ (entry.exceptions ≠ "" ∨ names ≠ "") := by
  obtain rfl := h.tells
  refine ⟨_, rfl, ?_⟩
  by_cases he : (inj.told owner m d).exceptions = ""
  · refine .inr fun hn => h.speaks ?_
    rw [told, MappingEntry.mk.injEq]
    exact ⟨he, congrArg some hn⟩
  · exact .inl he

private theorem Leaves.parameters_of_unmanaged {key : String} {entry : MappingEntry}
    (h : inj.Leaves owner m d key entry) (howner : inj.manages owner = false) :
    entry.parameters = some "" := by
  rw [← h.tells, told, howner]
  rfl

private theorem speaksOf_of_after {settings : Settings} {mappings : MappingTable}
    {classes : List (List UInt8)} {key : String} {entry : MappingEntry}
    (h : ((new settings mappings).after classes).output.get? key = some entry) :
    SpeaksOf settings classes key entry := by
  rcases get?_after h with hnone | ⟨bytes, hb, c, hc, m, -, mid, d, hjob, hleaves⟩
  · rw [output_new_get?] at hnone
    cases hnone
  · refine ⟨hleaves.speaks_names, bytes, hb, c, hc, hleaves.ownerText_eq, fun hout => ?_⟩
    apply hleaves.parameters_of_unmanaged
    rw [hjob.manages_eq]
    exact hout

private theorem le_succIndex (index : UInt32) : index ≤ NameStem.succIndex index := by
  have := index.toNat_lt
  rw [UInt32.le_iff_toNat_le, NameStem.toNat_succIndex]
  simp only [UInt32.size]
  omega

private theorem le_index_processMethod (inj : Injector) (owner : BinaryName) (m : Method) :
    inj.index ≤ (processMethod owner inj m).state.index := by
  rcases index_processMethod inj owner m with h | ⟨-, h⟩
  · exact h ▸ UInt32.le_refl _
  · exact h ▸ le_succIndex _

private theorem le_index_processClass (inj : Injector) (bytes : List UInt8) :
    inj.index ≤ (inj.processClass bytes).state.index := by
  rw [state_processClass]
  cases Class.parse bytes with
  | error e => exact UInt32.le_refl _
  | ok c =>
    have hstep (state : Injector) (m : Method) (h : inj.index ≤ state.index) :
        inj.index ≤ (processMethod c.name state m).state.index :=
      UInt32.le_trans h (le_index_processMethod state c.name m)
    exact Pass.run_invariant hstep (UInt32.le_refl _) c.methods

private theorem le_index_after (inj : Injector) (classes : List (List UInt8)) :
    inj.index ≤ (inj.after classes).index := by
  induction classes generalizing inj with
  | nil => exact UInt32.le_refl _
  | cons bytes classes ih => exact UInt32.le_trans (le_index_processClass inj bytes) (ih _)

/-- After any bytes, each of them a class or not and processed with success or without, every entry
of the output table speaks of a method in one of the classes, and the index is at least the initial
one. No bytes that follow make it smaller. -/
theorem after_invariants (settings : Settings) (mappings : MappingTable)
    (classes : List (List UInt8)) :
    let inj := (new settings mappings).after classes
    (∀ key entry, inj.output.get? key = some entry → SpeaksOf settings classes key entry) ∧
      settings.initialIndex ≤ inj.index ∧ ∀ more, inj.index ≤ (inj.after more).index := by
  intro inj
  refine ⟨fun key entry => speaksOf_of_after, ?_, fun more => le_index_after inj more⟩
  exact le_index_after (new settings mappings) classes

/-- Outside of the managed namespace a constructor tells its exceptions, but not the names that it
is given. -/
theorem after_invariants_unmanaged :
    let classes := [[], Assembly.queueBytes]
    let inj := (new { initialIndex := 5 } queueMappings).after classes
    let key := "a/Queue.<init>(JLb/Base;)V"
    ∃ entry, inj.output.get? key = some entry ∧ entry = ⟨"b/Fault,java/io/IOException", some ""⟩ ∧
      SpeaksOf { initialIndex := 5 } classes key entry := by
  intro classes inj key
  have hentry : inj.output.get? key = some ⟨"b/Fault,java/io/IOException", some ""⟩ := by
    decide +kernel
  exact ⟨_, hentry, rfl, (after_invariants _ _ _).1 key _ hentry⟩

end MethodMetadata.Injector
