import MethodMetadata.Proofs.Reports

/-! The output table of a job as the mapping table of the next. The next job takes it, unless an
entry has more or fewer names than its method has parameters, or exceptions that are no names. -/
namespace MethodMetadata

/-- An entry that can be given to a method with a descriptor. -/
structure MappingEntry.Suits (entry : MappingEntry) (d : MethodDescriptor) : Prop where
  exceptions : ∀ item ∈ CommaList.split entry.exceptions, binaryFault? item.toList = none
  parameters : ∀ text ∈ entry.parameters, (CommaList.split text).length = d.parameters.length

namespace Injector

variable {inj : Injector} {owner : BinaryName} {m : Method} {d : MethodDescriptor}

private theorem exists_map_text_iff {items : List String} :
    (∃ names : List BinaryName, names.map (·.text) = items) ↔
      ∀ item ∈ items, binaryFault? item.toList = none := by
  constructor
  · rintro ⟨names, rfl⟩ item hi
    obtain ⟨name, -, rfl⟩ := List.mem_map.mp hi
    exact name.valid
  · intro h
    exact ⟨items.attach.map fun item => ⟨item.1, h item.1 item.2⟩, by simp⟩

/-- A method is resolved with success exactly if its descriptor is one and its entry suits it. -/
theorem exists_processMethod_iff :
    (∃ m', (processMethod owner inj m).result = .ok m') ↔
      ∃ d, MethodDescriptor.ofText m.descriptor = .ok d ∧
        ∀ entry ∈ inj.entryFor owner m, entry.Suits d := by
  constructor
  · rintro ⟨m', hr⟩
    obtain ⟨names, d, hres⟩ := processMethod_eq_ok_iff.mp ⟨hr, rfl⟩
    refine ⟨d, hres.descriptor, fun entry he => ⟨?_, fun text ht => ?_⟩⟩
    · have hdeclares := hres.declares
      rw [he] at hdeclares
      exact exists_map_text_iff.mp ⟨names, hdeclares⟩
    · have hnames : (inj.namesOf owner m d).1 = some (CommaList.split text) := by
        rw [namesOf_fst, he, Option.bind_some, ht]
      exact Method.length_argumentNames_eq_iff.mp (hres.counted _ hnames)
  · rintro ⟨d, hd, hsuits⟩
    have hdeclares : ∃ names, Declares ((inj.entryFor owner m).map (·.exceptions)) m names := by
      cases he : inj.entryFor owner m with
      | none => exact ⟨m.exceptions, rfl⟩
      | some entry => exact exists_map_text_iff.mpr (hsuits entry he).exceptions
    have hcounted : ∀ parameters ∈ (inj.namesOf owner m d).1,
        (m.argumentNames parameters).length = (m.argumentTypes owner d).length := by
      intro parameters hp
      rcases namesOf_cases hp with ⟨text, ht, rfl⟩ | ⟨-, hlength, -⟩
      · obtain ⟨entry, he, ht⟩ := Option.bind_eq_some_iff.mp ht
        exact Method.length_argumentNames_eq_iff.mpr ((hsuits entry he).parameters text ht)
      · exact Method.length_argumentNames_eq_iff.mpr hlength
    obtain ⟨names, hn⟩ := hdeclares
    exact ⟨_, (processMethod_eq_ok_iff.mpr ⟨names, d, hn, hd, hcounted, rfl, rfl⟩).1⟩

/-- The methods of a class are resolved with success exactly if their entries suit them. -/
theorem exists_processMethods_iff {c : Class} :
    (∃ edited, (inj.processMethods c).result = .ok edited) ↔
      ∀ m ∈ c.methods, ∃ d, MethodDescriptor.ofText m.descriptor = .ok d ∧
        ∀ entry ∈ inj.entryFor c.name m, entry.Suits d := by
  constructor
  · rintro ⟨edited, he⟩ m hm
    obtain ⟨methods, -, hr⟩ := runs_of_processMethods he
    obtain ⟨i, hi, rfl⟩ := List.mem_iff_getElem.mp hm
    have hi' : i < methods.length := hr.length_eq.symm ▸ hi
    obtain ⟨d, hd, hsuits⟩ := exists_processMethod_iff.mp ⟨_, hr.at_index i hi hi'⟩
    exact ⟨d, hd, (sameJob_before inj c i).entryFor_eq ▸ hsuits⟩
  · intro h
    have hruns : ∃ methods last,
        Pass.Runs (processMethod c.name) inj c.methods methods last := by
      refine Pass.exists_runs (P := inj.SameJob) (fun _ m _ hs => ?_) (fun _ m hm hs => ?_)
        ⟨rfl, rfl⟩
      · exact sameJob_processMethod hs c.name m
      · exact exists_processMethod_iff.mpr (hs.entryFor_eq ▸ h m hm)
    obtain ⟨methods, last, hr⟩ := hruns
    exact ⟨_, (processMethods_of_runs hr).1⟩

/-- A method whose entry in the output table suits it again: it brings no comma into an exception,
and, if any names are told, one for each parameter. -/
structure Replays (inj : Injector) (owner : BinaryName) (m : Method) (d : MethodDescriptor) :
    Prop where
  exceptions : inj.entryFor owner m = none → ∀ name ∈ m.exceptions, ',' ∉ name.text.toList
  mapped : inj.manages owner = true → ∀ text ∈ (inj.entryFor owner m).bind (·.parameters),
    UnqualifiedName.this.text ∉ CommaList.split text
  kept : inj.manages owner = true → (inj.entryFor owner m).bind (·.parameters) = none →
    inj.generates = false → (CommaList.split (reported m.locals)).length = d.parameters.length
  unmanaged : inj.manages owner = false → d.parameters = [] ∨
    ((inj.entryFor owner m).map (·.exceptions)).getD (declared m) = ""

private theorem Replays.sameJob {mid : Injector} (hjob : SameJob inj mid)
    (h : inj.Replays owner m d) : mid.Replays owner m d := by
  obtain ⟨settings, mappings, output, index⟩ := mid
  obtain ⟨rfl, rfl⟩ := hjob
  exact ⟨h.exceptions, h.mapped, h.kept, h.unmanaged⟩

private theorem split_declared (h : ∀ name ∈ m.exceptions, ',' ∉ name.text.toList) :
    CommaList.split (declared m) = m.exceptions.map (·.text) := by
  refine CommaList.split_of_join (List.forall_mem_map.mpr h) fun hone => ?_
  obtain ⟨name, hn, hempty⟩ := List.mem_map.mp (hone ▸ List.mem_singleton_self "")
  have hvalid := name.valid
  rw [hempty] at hvalid
  cases hvalid

private theorem split_told_exceptions {names : List BinaryName}
    (h : inj.entryFor owner m = none → ∀ name ∈ m.exceptions, ',' ∉ name.text.toList)
    (hd : Declares ((inj.entryFor owner m).map (·.exceptions)) m names) :
    CommaList.split (inj.told owner m d).exceptions = names.map (·.text) := by
  cases he : inj.entryFor owner m with
  | some entry =>
    rw [he] at hd
    simp only [told, he, Option.map_some, Option.getD_some]
    exact Eq.symm hd
  | none =>
    rw [he] at hd
    obtain rfl : names = m.exceptions := hd
    simp only [told, he, Option.map_none, Option.getD_none]
    exact split_declared (h he)

private theorem split_join_toldNames {parameters : List String}
    (hp : (inj.namesOf owner m d).1 = some parameters)
    (h : ∀ text ∈ (inj.entryFor owner m).bind (·.parameters),
      UnqualifiedName.this.text ∉ CommaList.split text) :
    CommaList.split (CommaList.join (inj.toldNames owner m d)) = parameters := by
  rcases namesOf_cases hp with ⟨text, ht, rfl⟩ | ⟨-, -, hgen⟩
  · rw [toldNames_eq hp fun name hn he => h text ht (he ▸ hn), CommaList.join_of_split]
  · rw [toldNames_eq hp fun name hn => (hgen name hn).ne_this, NameStem.split_join_generated hgen]

private theorem length_split_toldNames (h : inj.Replays owner m d)
    (hown : inj.manages owner = true) (hcounted : ∀ parameters ∈ (inj.namesOf owner m d).1,
      (m.argumentNames parameters).length = (m.argumentTypes owner d).length) :
    (CommaList.split (CommaList.join (inj.toldNames owner m d))).length = d.parameters.length := by
  cases hp : (inj.namesOf owner m d).1 with
  | some parameters =>
    rw [split_join_toldNames hp (h.mapped hown)]
    exact Method.length_argumentNames_eq_iff.mp (hcounted parameters hp)
  | none =>
    obtain ⟨hnone, hgen⟩ := namesOf_eq_none_iff.mp hp
    rw [toldNames, hp, Option.getD_none]
    exact h.kept hown hnone hgen

private theorem Leaves.suits {key : String} {entry : MappingEntry}
    (hleft : inj.Leaves owner m d key entry) (h : inj.Replays owner m d) : entry.Suits d := by
  obtain ⟨⟨names, m', inj', hres⟩, -, rfl, hspeaks⟩ := hleft
  refine ⟨?_, fun text ht => ?_⟩
  · rw [split_told_exceptions h.exceptions hres.declares]
    exact exists_map_text_iff.mp ⟨names, rfl⟩
  · obtain rfl := Option.some.inj ht
    by_cases hown : inj.manages owner = true
    · rw [if_pos hown]
      exact length_split_toldNames h hown hres.counted
    · rw [if_neg hown]
      rcases h.unmanaged (Bool.eq_false_iff.mpr hown) with hd | hempty
      · rw [hd]
        rfl
      · refine absurd ?_ hspeaks
        rw [told, hempty, if_neg hown]

/-! In a managed class, what a method was given and told is what it is given again. -/

/-- A method whose names are mapped or generated, and that brings no comma into an exception. -/
structure Repeats (inj : Injector) (owner : BinaryName) (m : Method) : Prop where
  exceptions : inj.entryFor owner m = none → ∀ name ∈ m.exceptions, ',' ∉ name.text.toList
  mapped : ∀ text ∈ (inj.entryFor owner m).bind (·.parameters),
    UnqualifiedName.this.text ∉ CommaList.split text
  generated : (inj.entryFor owner m).bind (·.parameters) = none → inj.generates = true

instance (inj : Injector) (owner : BinaryName) (m : Method) : Decidable (inj.Repeats owner m) :=
  decidable_of_iff
    ((inj.entryFor owner m = none → ∀ name ∈ m.exceptions, ',' ∉ name.text.toList) ∧
      (∀ text ∈ (inj.entryFor owner m).bind (·.parameters),
        UnqualifiedName.this.text ∉ CommaList.split text) ∧
      ((inj.entryFor owner m).bind (·.parameters) = none → inj.generates = true))
    ⟨fun h => ⟨h.1, h.2.1, h.2.2⟩, fun h => ⟨h.exceptions, h.mapped, h.generated⟩⟩

private theorem Repeats.sameJob {mid : Injector} (hjob : SameJob inj mid)
    (h : inj.Repeats owner m) : mid.Repeats owner m := by
  obtain ⟨settings, mappings, output, index⟩ := mid
  obtain ⟨rfl, rfl⟩ := hjob
  exact ⟨h.exceptions, h.mapped, h.generated⟩

private theorem Repeats.exists_names (h : inj.Repeats owner m) (d : MethodDescriptor) :
    ∃ parameters, (inj.namesOf owner m d).1 = some parameters := by
  refine Option.ne_none_iff_exists'.mp fun hnone => ?_
  obtain ⟨hp, hg⟩ := namesOf_eq_none_iff.mp hnone
  exact Bool.noConfusion (hg.symm.trans (h.generated hp))

private theorem Resolves.output_eq {inj' next next' : Injector} {names : List BinaryName}
    {m' again : Method} (h : Resolves inj owner m names d m' inj')
    (h' : Resolves next owner m names d again next') (ho : next.output = inj.output)
    (hown : next.manages owner = inj.manages owner)
    (hrows : next.rowsOf owner m d = inj.rowsOf owner m d) : next'.output = inj'.output := by
  rw [← h.injector, ← h'.injector, output_collect, output_collect, hrows, report, report, hown, ho]

/-- Injectors that manage the same classes. -/
def SameNamespace (inj next : Injector) : Prop :=
  next.settings.managedNamespace = inj.settings.managedNamespace

private theorem SameNamespace.manages_eq {next : Injector} (h : SameNamespace inj next)
    (owner : BinaryName) : next.manages owner = inj.manages owner := by
  rw [manages, manages, h]

private theorem Resolves.of_names {inj' next : Injector} {names : List BinaryName} {m' : Method}
    (h : Resolves inj owner m names d m' inj') (hs : SameNamespace inj next)
    (hd : Declares ((next.entryFor owner m).map (·.exceptions)) m names)
    (hn : (next.namesOf owner m d).1 = (inj.namesOf owner m d).1) :
    ∃ next', Resolves next owner m names d m' next' ∧
      (next.output = inj.output → next'.output = inj'.output) := by
  have hrows : next.rowsOf owner m d = inj.rowsOf owner m d := by rw [rowsOf, rowsOf, hn]
  have hagain := Resolves.mk hd h.descriptor (hn ▸ h.counted) (hrows ▸ h.method) rfl
  exact ⟨_, hagain, fun ho => h.output_eq hagain ho (hs.manages_eq owner) hrows⟩

private theorem Resolves.repeated {inj' next : Injector} {names : List BinaryName} {m' : Method}
    (h : Resolves inj owner m names d m' inj') (hrep : inj.Repeats owner m)
    (hown : inj.manages owner = true) (hs : SameNamespace inj next)
    (ht : next.entryFor owner m =
      if inj.told owner m d ≠ ⟨"", some ""⟩ then some (inj.told owner m d) else none)
    (hsilent : next.entryFor owner m = none →
      inj.entryFor owner m = none ∧ next.generates = true) :
    ∃ next', Resolves next owner m names d m' next' ∧
      (next.output = inj.output → next'.output = inj'.output) := by
  obtain ⟨parameters, hp⟩ := hrep.exists_names d
  have hnames := split_join_toldNames hp hrep.mapped
  have hlength := Method.length_argumentNames_eq_iff.mp (h.counted parameters hp)
  by_cases hspeaks : inj.told owner m d ≠ ⟨"", some ""⟩
  · rw [if_pos hspeaks] at ht
    refine h.of_names hs ?_ ?_
    · rw [ht]
      exact (split_told_exceptions hrep.exceptions h.declares).symm
    · rw [hp, namesOf_fst, ht]
      simp only [told, if_pos hown, Option.bind_some, hnames]
  · -- A method that tells nothing has no parameters, so that no names are generated for it.
    rw [if_neg hspeaks] at ht
    obtain ⟨hnone, hgenerates⟩ := hsilent ht
    have hempty : CommaList.join (inj.toldNames owner m d) = "" := by
      have htold := congrArg MappingEntry.parameters (not_not.mp hspeaks)
      rw [told, if_pos hown] at htold
      exact Option.some.inj htold
    rw [hempty] at hnames
    subst hnames
    have hnext : next.Repeats owner m := by
      refine ⟨fun _ => hrep.exceptions hnone, fun _ hm => ?_, fun _ => hgenerates⟩
      rw [ht] at hm
      cases hm
    obtain ⟨others, ho⟩ := hnext.exists_names d
    refine h.of_names hs ?_ ?_
    · have hd := h.declares
      rw [hnone] at hd
      rw [ht]
      exact hd
    · rcases namesOf_cases ho with ⟨text, hm, -⟩ | ⟨-, hl, -⟩
      · rw [ht] at hm
        cases hm
      · rw [ho, hp, List.length_eq_zero_iff.mp (hl.trans hlength.symm)]
        rfl

private theorem get?_of_runs {state last : Injector} {items values : List Method}
    (h : Pass.Runs (processMethod owner) state items values last) {key : String}
    (hk : ∀ m ∈ items, keyText owner m ≠ key) : last.output.get? key = state.output.get? key := by
  refine h.invariant (P := fun mid => mid.output.get? key = state.output.get? key)
    (fun mid m hm m' hr hmid => ?_) rfl
  obtain ⟨names, d, hres⟩ := processMethod_eq_ok_iff.mp ⟨hr, rfl⟩
  rw [hres.get?_output, if_neg fun hs => hk m hm hs.1]
  exact hmid

/-- Methods with keys of their own are made again by a job that has their entries and no others. -/
theorem runs_repeated {state last : Injector} {items values : List Method}
    (h : Pass.Runs (processMethod owner) state items values last) {next : Injector}
    (hs : SameNamespace state next) (hown : state.manages owner = true)
    (hkeys : (items.map (keyText owner)).Nodup)
    (hnew : ∀ m ∈ items, state.output.get? (keyText owner m) = none)
    (ht : ∀ m ∈ items, next.entryFor owner m = last.output.get? (keyText owner m))
    (hrep : ∀ m ∈ items, state.Repeats owner m)
    (hentries : ∀ m ∈ items, next.entryFor owner m = none →
      state.entryFor owner m = none ∧ next.generates = true) :
    ∃ left, Pass.Runs (processMethod owner) next items values left ∧
      (next.output = state.output → left.output = last.output) := by
  induction h generalizing next with
  | nil => exact ⟨next, .nil, id⟩
  | @cons state last m m' items values head tail ih =>
    obtain ⟨names, d, hres⟩ := processMethod_eq_ok_iff.mp ⟨head, rfl⟩
    rw [List.map_cons, List.nodup_cons] at hkeys
    have hother : ∀ m₁ ∈ items, keyText owner m₁ ≠ keyText owner m := fun m₁ hm he =>
      hkeys.1 (he ▸ List.mem_map_of_mem hm)
    have hentry : next.entryFor owner m =
        if state.told owner m d ≠ ⟨"", some ""⟩ then some (state.told owner m d) else none := by
      rw [ht m List.mem_cons_self, get?_of_runs tail hother, hres.get?_output,
        hnew m List.mem_cons_self]
      simp
    obtain ⟨after, hleft, hout⟩ := hres.repeated (hrep m List.mem_cons_self) hown hs hentry
      (hentries m List.mem_cons_self)
    obtain ⟨hmade, hafter⟩ := processMethod_eq_ok_iff.mpr ⟨names, d, hleft⟩
    have hfirst : SameJob state (processMethod owner state m).state :=
      sameJob_processMethod ⟨rfl, rfl⟩ owner m
    have hagain : SameJob next (processMethod owner next m).state :=
      sameJob_processMethod ⟨rfl, rfl⟩ owner m
    have hrest : ∃ left, Pass.Runs (processMethod owner) (processMethod owner next m).state items
        values left ∧ ((processMethod owner next m).state.output =
          (processMethod owner state m).state.output → left.output = last.output) := by
      refine ih ?_ ((hfirst.manages_eq owner).trans hown) hkeys.2 (fun m₁ hm => ?_)
        (fun m₁ hm => ?_) (fun m₁ hm => ?_) fun m₁ hm => ?_
      · rw [SameNamespace, hagain.1, hs, hfirst.1]
      · rw [hres.get?_output, if_neg fun he => hother m₁ hm he.1.symm]
        exact hnew m₁ (List.mem_cons_of_mem _ hm)
      · rw [hagain.entryFor_eq]
        exact ht m₁ (List.mem_cons_of_mem _ hm)
      · exact (hrep m₁ (List.mem_cons_of_mem _ hm)).sameJob hfirst
      · rw [hagain.entryFor_eq, hfirst.entryFor_eq, hagain.generates_eq]
        exact hentries m₁ (List.mem_cons_of_mem _ hm)
    obtain ⟨left, hleft', hout'⟩ := hrest
    exact ⟨left, .cons hmade hleft', fun ho => hout' (hafter ▸ hout ho)⟩

def outputOf (settings : Settings) (mappings : MappingTable) (bytes : List UInt8) : MappingTable :=
  ((new settings mappings).processClass bytes).state.output

/-- A table whose entries suit the methods of a class that they speak for. -/
def Suits (table : MappingTable) (c : Class) : Prop :=
  ∀ m ∈ c.methods, ∀ d, MethodDescriptor.ofText m.descriptor = .ok d →
    ∀ entry ∈ table.get? (keyText c.name m), entry.Suits d

private theorem suits_outputOf {settings : Settings} {mappings : MappingTable}
    {bytes : List UInt8} {c : Class} (hc : Class.parse bytes = .ok c)
    (hkeys : ∀ m ∈ c.methods, ∀ m' ∈ c.methods, keyText c.name m = keyText c.name m' →
      m.descriptor = m'.descriptor)
    (hreplays : ∀ m ∈ c.methods, ∀ d, MethodDescriptor.ofText m.descriptor = .ok d →
      (new settings mappings).Replays c.name m d) :
    Suits (outputOf settings mappings bytes) c := by
  intro m hm d hd entry he
  have hstate : ((new settings mappings).processClass bytes).state =
      ((new settings mappings).processMethods c).state := by
    rw [state_processClass, hc]
  rw [outputOf, hstate] at he
  rcases get?_processMethods he with he | ⟨m', hm', mid, d', hjob, hleft⟩
  · rw [output_new_get?] at he
    cases he
  · obtain ⟨names, made, after, hres⟩ := hleft.resolves
    have hd' : MethodDescriptor.ofText m'.descriptor = .ok d := by
      rw [hkeys m' hm' m hm hleft.keyed, hd]
    obtain rfl : d' = d := Except.ok.inj (hres.descriptor.symm.trans hd')
    exact hleft.suits ((hreplays m' hm' d' hd').sameJob hjob)

private theorem processClass_repeated {settings : Settings} {mappings : MappingTable}
    {bytes made : List UInt8} {c : Class} (hc : Class.parse bytes = .ok c)
    (h : ((new settings mappings).processClass bytes).result = .ok made)
    (hown : (new settings mappings).manages c.name = true)
    (hkeys : (c.methods.map (keyText c.name)).Nodup)
    (hrep : ∀ m ∈ c.methods, (new settings mappings).Repeats c.name m)
    (hentries : ∀ m ∈ c.methods,
      (outputOf settings mappings bytes).get? (keyText c.name m) = none →
        mappings.get? (keyText c.name m) = none) :
    ((new settings (outputOf settings mappings bytes)).processClass bytes).result = .ok made := by
  obtain ⟨_, edited, hc', he, -, hs⟩ := processClass_eq_ok_iff.mp ⟨h, rfl⟩
  obtain rfl := Except.ok.inj (hc.symm.trans hc')
  obtain ⟨methods, rfl, hr⟩ := runs_of_processMethods he
  have houtput : outputOf settings mappings bytes =
      ((new settings mappings).processMethods c).state.output := by
    rw [outputOf, state_processClass, hc]
  have hsilent (m : Method) (hm : m ∈ c.methods)
      (hnone : (new settings (outputOf settings mappings bytes)).entryFor c.name m = none) :
      (new settings mappings).entryFor c.name m = none ∧
        (new settings (outputOf settings mappings bytes)).generates = true := by
    have hunmapped := hentries m hm hnone
    exact ⟨hunmapped, (hrep m hm).generated (congrArg (Option.bind · _) hunmapped)⟩
  have hspace : SameNamespace (new settings mappings)
      (new settings (outputOf settings mappings bytes)) := rfl
  obtain ⟨left, hagain, -⟩ := runs_repeated hr hspace hown hkeys
    (fun m _ => output_new_get? settings mappings _)
    (fun m _ => congrArg (MappingTable.get? · _) houtput) hrep hsilent
  exact (processClass_eq_ok_iff.mpr ⟨c, _, hc, (processMethods_of_runs hagain).1, rfl, hs⟩).1

/-- The output table of a job that processed a class, taken for the mapping table of the next one.
The methods of the class are resolved then exactly if the entries suit them, and the class is made
exactly if it can be stored as well. The entries do suit if every method replays, and methods with
one key have one descriptor. A managed class whose methods have keys of their own is made with the
same bytes if every method repeats, and those that were mapped have entries. -/
theorem processClass_outputOf {settings : Settings} {mappings : MappingTable}
    {bytes made : List UInt8} {c : Class} (hc : Class.parse bytes = .ok c)
    (h : ((new settings mappings).processClass bytes).result = .ok made) :
    let first := new settings mappings
    let output := outputOf settings mappings bytes
    let next := new settings output
    ((∃ edited, (next.processMethods c).result = .ok edited) ↔ Suits output c) ∧
      ((∃ remade, (next.processClass bytes).result = .ok remade) ↔ Suits output c ∧
        ∀ edited, (next.processMethods c).result = .ok edited →
          ∃ remade, edited.serialize = .ok remade) ∧
      ((∀ m ∈ c.methods, ∀ m' ∈ c.methods, keyText c.name m = keyText c.name m' →
          m.descriptor = m'.descriptor) →
        (∀ m ∈ c.methods, ∀ d, MethodDescriptor.ofText m.descriptor = .ok d →
          first.Replays c.name m d) → Suits output c) ∧
      (first.manages c.name = true → (c.methods.map (keyText c.name)).Nodup →
        (∀ m ∈ c.methods, first.Repeats c.name m) →
        (∀ m ∈ c.methods, output.get? (keyText c.name m) = none →
          mappings.get? (keyText c.name m) = none) →
        (next.processClass bytes).result = .ok made) := by
  intro first output next
  have hdescriptors : ∀ m ∈ c.methods, ∃ d, MethodDescriptor.ofText m.descriptor = .ok d := by
    obtain ⟨_, edited, hc', he, -, -⟩ := processClass_eq_ok_iff.mp ⟨h, rfl⟩
    obtain rfl := Except.ok.inj (hc.symm.trans hc')
    intro m hm
    obtain ⟨d, hd, -⟩ := exists_processMethods_iff.mp ⟨edited, he⟩ m hm
    exact ⟨d, hd⟩
  have hmethods : (∃ edited, (next.processMethods c).result = .ok edited) ↔ Suits output c := by
    rw [exists_processMethods_iff]
    constructor
    · intro hall m hm d hd
      obtain ⟨_, hd', hsuits⟩ := hall m hm
      obtain rfl := Except.ok.inj (hd.symm.trans hd')
      exact hsuits
    · intro hall m hm
      obtain ⟨d, hd⟩ := hdescriptors m hm
      exact ⟨d, hd, hall m hm d hd⟩
  refine ⟨hmethods, ?_, suits_outputOf hc, processClass_repeated hc h⟩
  constructor
  · rintro ⟨remade, hr⟩
    obtain ⟨_, edited, hc', he, -, hs⟩ := processClass_eq_ok_iff.mp ⟨hr, rfl⟩
    obtain rfl := Except.ok.inj (hc.symm.trans hc')
    refine ⟨hmethods.mp ⟨edited, he⟩, fun other ho => ?_⟩
    obtain rfl := Except.ok.inj (he.symm.trans ho)
    exact ⟨remade, hs⟩
  · rintro ⟨hsuits, hstore⟩
    obtain ⟨edited, he⟩ := hmethods.mpr hsuits
    obtain ⟨remade, hs⟩ := hstore edited he
    exact ⟨remade, (processClass_eq_ok_iff.mpr ⟨c, edited, hc, he, rfl, hs⟩).1⟩

/-- A job that maps two methods of the class and generates the names of the third. -/
theorem processClass_outputOf_queue : ∃ c made,
    Class.parse Assembly.queueBytes = .ok c ∧
      ((new queueSettings queueMappings).processClass Assembly.queueBytes).result = .ok made ∧
      Suits (outputOf queueSettings queueMappings Assembly.queueBytes) c ∧
      ((new queueSettings (outputOf queueSettings queueMappings Assembly.queueBytes)).processClass
        Assembly.queueBytes).result = .ok made := by
  have heval : ((new queueSettings queueMappings).processClass Assembly.queueBytes).result.toOption
        |>.isSome := by decide +kernel
  have hclass : ∀ c ∈ (Class.parse Assembly.queueBytes).toOption,
      (new queueSettings queueMappings).manages c.name = true ∧
        (c.methods.map (keyText c.name)).Nodup ∧
        (∀ m ∈ c.methods, (new queueSettings queueMappings).Repeats c.name m) ∧
        ∀ m ∈ c.methods, ((outputOf queueSettings queueMappings Assembly.queueBytes).get?
          (keyText c.name m)).isSome := by decide +kernel
  obtain ⟨made, hmade⟩ := isSome_toOption_iff.mp heval
  obtain ⟨c, edited, hc, -⟩ := processClass_eq_ok_iff.mp ⟨hmade, rfl⟩
  obtain ⟨hown, hkeys, hrep, hentries⟩ := hclass c (toOption_eq_some_iff.mpr hc)
  obtain ⟨-, hmakes, -, hrepeats⟩ := processClass_outputOf hc hmade
  have hagain := hrepeats hown hkeys hrep fun m hm hnone => by
    have hsome := hentries m hm
    rw [hnone] at hsome
    cases hsome
  exact ⟨c, made, hc, hmade, (hmakes.mp ⟨made, hagain⟩).1, hagain⟩

/-- Without a mapping the class is processed, but its output is refused: the constructor told its
exceptions and no names when the class is not managed, and the one name in its body, which was not
of a parameter, when it is. -/
theorem processClass_outputOf_refused :
    (((new {} MappingTable.empty).processClass Assembly.queueBytes).result.toOption.isSome ∧
      ((new {} (outputOf {} MappingTable.empty Assembly.queueBytes)).processClass
        Assembly.queueBytes).result =
          .error (.inMethod "a/Queue.<init>(JLb/Base;)V" (.argumentCount 3 1))) ∧
    let managed : Settings := { managedNamespace := "a/" }
    ((new managed MappingTable.empty).processClass Assembly.queueBytes).result.toOption.isSome ∧
      ((new managed (outputOf managed MappingTable.empty Assembly.queueBytes)).processClass
        Assembly.queueBytes).result =
          .error (.inMethod "a/Queue.<init>(JLb/Base;)V" (.argumentCount 3 2)) := by
  decide +kernel

end Injector

end MethodMetadata
