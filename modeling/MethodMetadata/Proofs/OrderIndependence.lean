import MethodMetadata.Proofs.ConstructorIndices

/-! What a class is made into does not depend on the classes in front of it, except by the index. A
job that generates no names therefore comes to the same in any order of its classes. -/
namespace MethodMetadata

namespace Injector

variable {inj inj' first : Injector} {base : MappingTable}

/-- An injector that does the same as another, with the entries of the other in front of those of a
table. -/
structure Overlays (base : MappingTable) (inj inj' : Injector) : Prop where
  job : SameJob inj inj'
  index : inj'.index = inj.index
  output : ∀ key, inj'.output.get? key = (inj.output.get? key).or (base.get? key)

private theorem Overlays.collect (h : Overlays base inj inj') (key exceptions parameters : String) :
    Overlays base (inj.collect key exceptions parameters)
      (inj'.collect key exceptions parameters) := by
  have hjob := sameJob_collect inj key exceptions parameters
  have hjob' := sameJob_collect inj' key exceptions parameters
  refine ⟨⟨?_, ?_⟩, ?_, fun other => ?_⟩
  · rw [hjob'.1, hjob.1, h.job.1]
  · rw [hjob'.2, hjob.2, h.job.2]
  · rw [collect_index, collect_index, h.index]
  · rw [get?_collect, get?_collect]
    split
    · rfl
    · exact h.output other

private theorem Overlays.parameterNames (h : Overlays base inj inj') (owner : BinaryName)
    (m : Method) (count : Nat) (mapped : Option String) :
    inj'.parameterNames owner m count mapped = inj.parameterNames owner m count mapped := by
  unfold Injector.parameterNames
  rw [h.job.generates_eq, h.job.manages_eq, h.index]

private theorem Overlays.report (h : Overlays base inj inj') (owner : BinaryName)
    (locals : List LocalVariable) : inj'.report owner locals = inj.report owner locals := by
  unfold Injector.report
  rw [h.job.manages_eq]

private theorem Overlays.resolveParameters (h : Overlays base inj inj') (owner : BinaryName)
    (m : Method) (mapped : Option String) :
    (inj.resolveParameters owner m mapped).Related
      (fun state state' => Overlays base state.1 state'.1 ∧ state'.2 = state.2)
      (inj'.resolveParameters owner m mapped) := by
  unfold Injector.resolveParameters
  cases MethodDescriptor.ofText m.descriptor with
  | error e => exact ⟨rfl, rfl, h, rfl⟩
  | ok d =>
    simp only [h.parameterNames, h.report]
    rcases inj.parameterNames owner m d.parameters.length mapped with ⟨_ | parameters, index⟩
    · exact ⟨rfl, rfl, h, rfl⟩
    · dsimp only
      split <;> exact ⟨rfl, rfl, ⟨h.job, rfl, h.output⟩, rfl⟩

private theorem Overlays.processMethod (h : Overlays base inj inj') (owner : BinaryName)
    (m : Method) :
    (processMethod owner inj m).Related (Overlays base) (processMethod owner inj' m) := by
  unfold Injector.processMethod
  rw [h.job.2]
  dsimp only
  split
  · exact ⟨rfl, rfl, h⟩
  · have hparameters := h.resolveParameters owner
      (resolveExceptions m ((inj.mappings.get? (keyText owner m)).map (·.exceptions))).state
      ((inj.mappings.get? (keyText owner m)).bind (·.parameters))
    rw [hparameters.result, hparameters.log]
    split
    · exact ⟨rfl, rfl, hparameters.state.1⟩
    · exact ⟨congrArg Except.ok hparameters.state.2, rfl, hparameters.state.1.collect _ _ _⟩

/-- A class is processed alike whatever is in the output table, and its entries go in front. -/
theorem Overlays.processClass (h : Overlays base inj inj') (bytes : List UInt8) :
    (inj.processClass bytes).Related (Overlays base) (inj'.processClass bytes) := by
  unfold Injector.processClass
  cases Class.parse bytes with
  | error e => exact ⟨rfl, rfl, h⟩
  | ok c =>
    obtain ⟨hresult, hlog, hstate⟩ :=
      Pass.run_related (fun _ _ m h => h.processMethod c.name m) h c.methods
    simp only [processMethods, hresult, hlog]
    exact ⟨rfl, rfl, hstate⟩

private theorem overlays_of_sameJob (hfirst : ∀ key, first.output.get? key = none)
    (h : SameJob first inj) (hindex : inj.index = first.index) : Overlays inj.output first inj :=
  ⟨h, hindex, fun key => by rw [hfirst, Option.none_or]⟩

private theorem processClass_of_sameJob (h : SameJob inj inj') (hindex : inj'.index = inj.index)
    (bytes : List UInt8) :
    (inj'.processClass bytes).result = (inj.processClass bytes).result ∧
      (inj'.processClass bytes).log = (inj.processClass bytes).log ∧
      (inj'.processClass bytes).state.index = (inj.processClass bytes).state.index := by
  let bare : Injector := { inj with output := .empty }
  have hbare : ∀ key, bare.output.get? key = none := MappingTable.get?_empty
  have hinj : Overlays inj.output bare inj := overlays_of_sameJob hbare ⟨rfl, rfl⟩ rfl
  have hinj' : Overlays inj'.output bare inj' := overlays_of_sameJob hbare h hindex
  obtain ⟨hresult, hlog, hstate⟩ := hinj.processClass bytes
  obtain ⟨hresult', hlog', hstate'⟩ := hinj'.processClass bytes
  exact ⟨hresult'.trans hresult.symm, hlog'.trans hlog.symm,
    hstate'.index.trans hstate.index.symm⟩

/-- The entry that a class leaves under a key when it is the first of a job. -/
def alone? (first : Injector) (key : String) (bytes : List UInt8) : Option MappingEntry :=
  (first.processClass bytes).state.output.get? key

private theorem runs_alone (hg : first.generates = false)
    (hfirst : ∀ key, first.output.get? key = none) {last : Injector}
    {classes made : List (List UInt8)} (h : Pass.Runs processClass inj classes made last)
    (hjob : SameJob first inj) (hindex : inj.index = first.index) :
    List.Forall₂ (fun bytes out => (first.processClass bytes).result = .ok out) classes made ∧
      ∀ key, last.output.get? key =
        (classes.reverse.findSome? (first.alone? key)).or (inj.output.get? key) := by
  -- The index never leaves the one of the first injector, so that each class finds what it finds
  -- alone but for the output table, and the table lies under what the class adds.
  induction h with
  | nil => exact ⟨.nil, fun key => rfl⟩
  | @cons inj last bytes out classes made head tail ih =>
    have hstep := (overlays_of_sameJob hfirst hjob hindex).processClass bytes
    have hkept : (first.processClass bytes).state.index = first.index := index_after hg [bytes]
    obtain ⟨hmade, hlast⟩ := ih ((sameJob_processClass first bytes).trans hstep.state.job)
      (hstep.state.index.trans hkept)
    refine ⟨.cons (hstep.result ▸ head) hmade, fun key => ?_⟩
    rw [hlast, hstep.state.output, List.reverse_cons, List.findSome?_append, Option.or_assoc]
    simp [alone?]

/-- Classes that do not bear one name. -/
def DifferentNames (bytes bytes' : List UInt8) : Prop :=
  ∀ c ∈ (Class.parse bytes).toOption, ∀ c' ∈ (Class.parse bytes').toOption, c.name ≠ c'.name

instance (bytes bytes' : List UInt8) : Decidable (DifferentNames bytes bytes') :=
  inferInstanceAs (Decidable (∀ _ ∈ _, _))

private theorem ownerText_of_alone? (hfirst : ∀ key, first.output.get? key = none) {key : String}
    {bytes : List UInt8} {entry : MappingEntry} (h : first.alone? key bytes = some entry) :
    ∃ c, Class.parse bytes = .ok c ∧ SignatureKey.ownerText key = c.name.text := by
  rcases get?_processClass h with hnone | ⟨c, hc, m, -, mid, d, -, hleaves⟩
  · rw [hfirst] at hnone
    cases hnone
  · exact ⟨c, hc, hleaves.ownerText_eq⟩

private theorem alone?_of_differentNames (hfirst : ∀ key, first.output.get? key = none)
    (key : String) {bytes bytes' : List UInt8} (h : DifferentNames bytes bytes') :
    first.alone? key bytes = none ∨ first.alone? key bytes' = none := by
  cases hb : first.alone? key bytes with
  | none => exact .inl rfl
  | some entry =>
    cases hb' : first.alone? key bytes' with
    | none => exact .inr rfl
    | some entry' =>
      obtain ⟨c, hc, hname⟩ := ownerText_of_alone? hfirst hb
      obtain ⟨c', hc', hname'⟩ := ownerText_of_alone? hfirst hb'
      have htext : c.name.text = c'.name.text := hname.symm.trans hname'
      have hdifferent := h c (toOption_eq_some_iff.mpr hc) c' (toOption_eq_some_iff.mpr hc')
      exact absurd (BinaryName.mk.injEq .. ▸ htext) hdifferent

private theorem findSome?_perm {α β : Type} {f : α → Option β} {items items' : List α}
    (hperm : items.Perm items') (h : items.Pairwise fun a b => f a = none ∨ f b = none) :
    items.findSome? f = items'.findSome? f := by
  induction hperm with
  | nil => rfl
  | cons a _ ih => rw [List.findSome?_cons, List.findSome?_cons, ih h.of_cons]
  | swap a b items =>
    have hab := List.rel_of_pairwise_cons h List.mem_cons_self
    simp only [List.findSome?_cons]
    rcases hab with hn | hn <;> rw [hn]
  | trans first _ ih ih' =>
    rw [ih h, ih' ((first.pairwise_iff Or.symm).mp h)]

private theorem renderOutput_congr (h : SameJob inj inj') (hindex : inj'.index = inj.index)
    (hentries : ∀ key, inj'.output.get? key = inj.output.get? key) :
    inj'.renderOutput = inj.renderOutput := by
  have htable : inj'.output.entries = inj.output.entries :=
    Std.ExtTreeMap.ext_getElem? fun key => hentries key
  unfold renderOutput outputHeader MappingTable.render MappingTable.toList
  rw [h.generates_eq, hindex, htable]

private theorem eq_map_of_alone {out : List UInt8 → List UInt8}
    (hout : ∀ bytes, out bytes = (first.processClass bytes).result.toOption.getD [])
    {classes made : List (List UInt8)} (h : List.Forall₂
      (fun bytes made => (first.processClass bytes).result = .ok made) classes made) :
    made = classes.map out := by
  induction h with
  | nil => rfl
  | cons head tail ih =>
    rw [List.map_cons, ← ih, hout, head]
    rfl

private theorem exists_runs_of_alone (hg : first.generates = false) {classes : List (List UInt8)}
    (h : ∀ bytes ∈ classes, ∃ made, (first.processClass bytes).result = .ok made) :
    ∃ made last, Pass.Runs processClass first classes made last := by
  let P (state : Injector) : Prop := SameJob first state ∧ state.index = first.index
  refine Pass.exists_runs (P := P) (fun state bytes _ hs => ?_) (fun state bytes hb hs => ?_)
    ⟨⟨rfl, rfl⟩, rfl⟩
  · refine ⟨hs.1.trans (sameJob_processClass state bytes), ?_⟩
    exact (index_after (hs.1.generates_eq.trans hg) [bytes]).trans hs.2
  · obtain ⟨made, hmade⟩ := h bytes hb
    exact ⟨made, (processClass_of_sameJob hs.1 hs.2 bytes).1.trans hmade⟩

private theorem run_perm (hg : first.generates = false)
    (hfirst : ∀ key, first.output.get? key = none) {out : List UInt8 → List UInt8}
    (hout : ∀ bytes, out bytes = (first.processClass bytes).result.toOption.getD [])
    {classes made : List (List UInt8)}
    (h : (Pass.run processClass first classes).result = .ok made)
    (hnames : classes.Pairwise DifferentNames) {shuffled : List (List UInt8)}
    (hperm : shuffled.Perm classes) :
    (Pass.run processClass first shuffled).result = .ok (shuffled.map out) ∧
      (first.after shuffled).renderOutput = (first.after classes).renderOutput := by
  have hruns := Pass.runs_of_run h
  obtain ⟨halone, hentries⟩ := runs_alone hg hfirst hruns ⟨rfl, rfl⟩ rfl
  have hok : ∀ bytes ∈ shuffled, ∃ made, (first.processClass bytes).result = .ok made := by
    intro bytes hb
    obtain ⟨made, -, hmade⟩ := exists_of_mem_left halone (hperm.mem_iff.mp hb)
    exact ⟨made, hmade⟩
  obtain ⟨values, last, hruns'⟩ := exists_runs_of_alone hg hok
  obtain ⟨halone', hentries'⟩ := runs_alone hg hfirst hruns' ⟨rfl, rfl⟩ rfl
  have hjob := sameJob_after first classes
  have hjob' := sameJob_after first shuffled
  refine ⟨eq_map_of_alone hout halone' ▸ (Pass.run_of_runs hruns').1, ?_⟩
  refine renderOutput_congr ⟨hjob'.1.trans hjob.1.symm, hjob'.2.trans hjob.2.symm⟩
    ((index_after hg shuffled).trans (index_after hg classes).symm) fun key => ?_
  have hreverse : classes.reverse.Perm shuffled.reverse :=
    (classes.reverse_perm.trans hperm.symm).trans shuffled.reverse_perm.symm
  have hdisjoint : classes.Pairwise fun bytes bytes' =>
      first.alone? key bytes = none ∨ first.alone? key bytes' = none :=
    hnames.imp (alone?_of_differentNames hfirst key)
  rw [after_of_runs hruns, after_of_runs hruns', hentries, hentries', findSome?_perm hreverse
    ((classes.reverse_perm.symm.pairwise_iff Or.symm).mp hdisjoint)]

/-- Two injectors that differ in nothing but their output tables make the same of a class, with the
same error if it fails, and go on with the same index. Where no names are generated, classes of
different names may therefore come in any order: each one is made into the same bytes, and the same
output table is saved. -/
theorem processClass_reordered :
    (∀ {inj inj' : Injector}, SameJob inj inj' → inj'.index = inj.index → ∀ bytes,
      (inj'.processClass bytes).result = (inj.processClass bytes).result ∧
        (inj'.processClass bytes).log = (inj.processClass bytes).log ∧
        (inj'.processClass bytes).state.index = (inj.processClass bytes).state.index) ∧
      ∀ {settings : Settings} {mappings : MappingTable} {classes made : List (List UInt8)},
        settings.initialIndex = 0 →
        (Pass.run processClass (new settings mappings) classes).result = .ok made →
        classes.Pairwise DifferentNames →
          ∃ out : List UInt8 → List UInt8, made = classes.map out ∧
            ∀ shuffled : List (List UInt8), shuffled.Perm classes →
              (Pass.run processClass (new settings mappings) shuffled).result =
                  .ok (shuffled.map out) ∧
                ((new settings mappings).after shuffled).renderOutput =
                  ((new settings mappings).after classes).renderOutput := by
  refine ⟨fun hjob hindex bytes => processClass_of_sameJob hjob hindex bytes, ?_⟩
  intro settings mappings classes made hzero h hnames
  have hg : (new settings mappings).generates = false :=
    decide_eq_false fun hpositive => Nat.lt_irrefl 0 (hzero ▸ hpositive : (0 : UInt32) < 0)
  let out (bytes : List UInt8) : List UInt8 :=
    ((new settings mappings).processClass bytes).result.toOption.getD []
  have hall (shuffled : List (List UInt8)) (hperm : shuffled.Perm classes) :=
    run_perm hg (output_new_get? settings mappings) (fun _ => rfl) h hnames hperm
  exact ⟨out, Except.ok.inj (h.symm.trans (hall classes (.refl _)).1), hall⟩

end Injector

namespace Assembly

/-- A class of a given name with nothing but the constructor of the queue. -/
def shellBytes (name : String) : List UInt8 :=
  let constructors := queueSource.methods.take 1
  (assemble { queueSource with thisName := name, methods := constructors }).toOption.getD []

end Assembly

namespace Injector

/-- Two classes in both orders, and one of them where the mapped entries are in the output table
already. -/
theorem processClass_reordered_pair :
    let queue := Assembly.shellBytes "a/Queue"
    let stack := Assembly.shellBytes "a/Stack"
    let first := new { queueSettings with initialIndex := 0 } queueMappings
    let counting := new queueSettings MappingTable.empty
    (∃ bytes bytes',
      (Pass.run processClass first [queue, stack]).result = .ok [bytes, bytes'] ∧
        (Pass.run processClass first [stack, queue]).result = .ok [bytes', bytes] ∧
        (first.after [stack, queue]).renderOutput = (first.after [queue, stack]).renderOutput) ∧
      ({ counting with output := queueMappings }.processClass queue).result =
        (counting.processClass queue).result ∧
      (counting.processClass queue).state.index = 2 := by
  intro queue stack first counting
  have hok : (Pass.run processClass first [queue, stack]).result.toOption.isSome := by
    decide +kernel
  obtain ⟨made, hmade⟩ := isSome_toOption_iff.mp hok
  have hnames : [queue, stack].Pairwise DifferentNames := by decide +kernel
  obtain ⟨out, rfl, hall⟩ := processClass_reordered.2 rfl hmade hnames
  obtain ⟨hshuffled, hrender⟩ := hall [stack, queue] (.swap _ _ _)
  have hjob : SameJob counting { counting with output := queueMappings } := ⟨rfl, rfl⟩
  have hsame := processClass_reordered.1 hjob rfl queue
  exact ⟨⟨_, _, hmade, hshuffled, hrender⟩, hsame.1, by decide +kernel⟩

end Injector

end MethodMetadata
