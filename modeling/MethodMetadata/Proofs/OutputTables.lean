import MethodMetadata.Proofs.Reports

/-! Output tables that are saved. They read back exactly if no name that a method told has a bar;
otherwise they cannot be read at all. -/
namespace MethodMetadata.Injector

variable {inj : Injector} {owner : BinaryName} {m : Method} {d : MethodDescriptor}

def savedIndex (inj : Injector) : Option UInt32 :=
  if inj.generates then some inj.index else none

/-- A method that does not bring names with bars into the output table: those that it declares, if
no exceptions are mapped, and those of its local variables, if they are told. -/
structure BringsNoBars (inj : Injector) (owner : BinaryName) (m : Method) : Prop where
  exceptions : inj.entryFor owner m = none → ∀ name ∈ m.exceptions, '|' ∉ name.text.toList
  locals : (inj.entryFor owner m).bind (·.parameters) = none → inj.generates = false →
    inj.manages owner = true → ∀ v ∈ m.locals, '|' ∉ v.name.toList

instance (inj : Injector) (owner : BinaryName) (m : Method) :
    Decidable (inj.BringsNoBars owner m) :=
  decidable_of_iff
    ((inj.entryFor owner m = none → ∀ name ∈ m.exceptions, '|' ∉ name.text.toList) ∧
      ((inj.entryFor owner m).bind (·.parameters) = none → inj.generates = false →
        inj.manages owner = true → ∀ v ∈ m.locals, '|' ∉ v.name.toList))
    ⟨fun h => ⟨h.1, h.2⟩, fun h => ⟨h.exceptions, h.locals⟩⟩

private theorem barless_declared (h : ∀ name ∈ m.exceptions, '|' ∉ name.text.toList) :
    '|' ∉ (declared m).toList := by
  intro hbar
  rcases CommaList.mem_join hbar with hc | ⟨text, ht, hc⟩
  · exact absurd hc (by decide)
  · obtain ⟨name, hn, rfl⟩ := List.mem_map.mp ht
    exact h name hn hc

private theorem barless_toldNames (hmap : inj.mappings.Barless) (h : inj.BringsNoBars owner m)
    (hown : inj.manages owner = true) : ∀ name ∈ inj.toldNames owner m d, '|' ∉ name.toList := by
  intro name hn hbar
  have hn := List.mem_of_mem_filter hn
  cases hp : (inj.namesOf owner m d).1 with
  | some parameters =>
    rw [hp, Option.getD_some] at hn
    rcases namesOf_cases hp with ⟨text, ht, rfl⟩ | ⟨-, -, hgen⟩
    · obtain ⟨entry, he, ht⟩ := Option.bind_eq_some_iff.mp ht
      exact (hmap _ entry he).parameters text ht (CommaList.mem_of_mem_split hn hbar)
    · exact absurd ((hgen name hn).chars '|' hbar) (by decide)
  | none =>
    rw [hp, Option.getD_none] at hn
    obtain ⟨v, hv, rfl⟩ := List.mem_map.mp hn
    obtain ⟨hnone, hgen⟩ := namesOf_eq_none_iff.mp hp
    exact h.locals hnone hgen hown v hv hbar

private theorem barless_told (hmap : inj.mappings.Barless) (h : inj.BringsNoBars owner m) :
    (inj.told owner m d).Barless := by
  constructor
  · cases he : inj.entryFor owner m with
    | some entry =>
      simp only [told, he, Option.map_some, Option.getD_some]
      exact (hmap _ entry he).exceptions
    | none =>
      simp only [told, he, Option.map_none, Option.getD_none]
      exact barless_declared (h.exceptions he)
  · intro parameters hp
    obtain rfl := Option.some.inj hp
    split
    next hown =>
      intro hbar
      rcases CommaList.mem_join hbar with hc | ⟨name, hn, hc⟩
      · exact absurd hc (by decide)
      · exact barless_toldNames hmap h hown name hn hc
    next => exact List.not_mem_nil

private theorem BringsNoBars.sameJob {mid : Injector} (hjob : SameJob inj mid)
    (h : inj.BringsNoBars owner m) : mid.BringsNoBars owner m := by
  obtain ⟨settings, mappings, output, index⟩ := mid
  obtain ⟨rfl, rfl⟩ := hjob
  exact ⟨h.exceptions, h.locals⟩

private theorem isSome_parameters_of_after {settings : Settings} {mappings : MappingTable}
    {classes : List (List UInt8)} : ∀ key,
      ∀ entry ∈ ((new settings mappings).after classes).output.get? key,
        entry.parameters.isSome :=
  forall_output_after (fun key entry he => by rw [output_new_get?] at he; cases he)
    fun _ _ _ _ _ _ _ _ _ => rfl

private theorem renderOutput_eq (inj : Injector) :
    inj.renderOutput = inj.output.render (inj.savedIndex.map MappingTable.maxIndexHeader) := by
  unfold renderOutput outputHeader savedIndex
  cases inj.generates <;> rfl

/-- An output table without bars reads back as it is saved. -/
theorem parse_renderOutput_of_barless (h : inj.output.Barless) :
    MappingTable.parse inj.renderOutput = .ok ⟨inj.output.entries, inj.savedIndex⟩ := by
  rw [renderOutput_eq]
  exact MappingTable.parse_render_of_barless h inj.savedIndex

/-- If no mapping and no method brings a bar, none gets into the output table. -/
theorem barless_output_after {settings : Settings} {mappings : MappingTable}
    {classes : List (List UInt8)} (hmap : mappings.Barless)
    (h : ∀ bytes ∈ classes, ∀ c, Class.parse bytes = .ok c → ∀ m ∈ c.methods,
      (new settings mappings).BringsNoBars c.name m) :
    ((new settings mappings).after classes).output.Barless := by
  refine forall_output_after (fun key entry he => ?_) fun bytes hb c hc m hm mid d hjob => ?_
  · rw [output_new_get?] at he
    cases he
  · have hmid : mid.mappings.Barless := hjob.2 ▸ hmap
    exact barless_told hmid ((h bytes hb c hc m hm).sameJob hjob)

/-- After any classes, processed with or without success, the saved output table reads back with its
entries and the index exactly if its entries have no bars, and else it cannot be read at all. There
are no bars if no method brings any into the table. -/
theorem parse_renderOutput {settings : Settings} {mappings : MappingTable} {text : String}
    (hmap : MappingTable.parse text = .ok mappings) (classes : List (List UInt8)) :
    let inj := (new settings mappings).after classes
    (MappingTable.parse inj.renderOutput = .ok ⟨inj.output.entries, inj.savedIndex⟩ ↔
        inj.output.Barless) ∧
      ((∃ table, MappingTable.parse inj.renderOutput = .ok table) ↔ inj.output.Barless) ∧
      ((∀ bytes ∈ classes, ∀ c, Class.parse bytes = .ok c → ∀ m ∈ c.methods,
          (new settings mappings).BringsNoBars c.name m) → inj.output.Barless) := by
  intro inj
  refine ⟨⟨fun h => (MappingTable.barless_of_parse h).of_entries rfl,
      parse_renderOutput_of_barless⟩,
    ⟨fun ⟨table, h⟩ => ?_, fun h => ⟨_, parse_renderOutput_of_barless h⟩⟩,
    barless_output_after (MappingTable.barless_of_parse hmap)⟩
  rw [renderOutput_eq] at h
  intro key entry he
  obtain ⟨other, hother⟩ := MappingTable.parse_text_of_parse_render h key entry he
  exact MappingEntry.barless_of_parse_text (isSome_parameters_of_after key entry he) hother

/-- A job that maps one method of the class, generates the names of the others, and goes on behind
bytes that are no class. -/
theorem parse_renderOutput_queue : ∃ mappings,
    MappingTable.parse "a/Queue.run([I)V=x/Y|items" = .ok mappings ∧
      let inj := (new { managedNamespace := "a/", initialIndex := 5 } mappings).after
        [[], Assembly.queueBytes]
      inj.output.size = 3 ∧ inj.output.Barless ∧
        MappingTable.parse inj.renderOutput = .ok ⟨inj.output.entries, some 6⟩ := by
  have hm : (MappingTable.parse "a/Queue.run([I)V=x/Y|items").toOption.isSome := by decide +kernel
  obtain ⟨mappings, hm⟩ := isSome_toOption_iff.mp hm
  have hall : ∀ mappings ∈ (MappingTable.parse "a/Queue.run([I)V=x/Y|items").toOption,
      let start := new { managedNamespace := "a/", initialIndex := 5 } mappings
      (∀ bytes ∈ [[], Assembly.queueBytes], ∀ c ∈ (Class.parse bytes).toOption, ∀ m ∈ c.methods,
        start.BringsNoBars c.name m) ∧
      (start.after [[], Assembly.queueBytes]).output.size = 3 ∧
      (start.after [[], Assembly.queueBytes]).savedIndex = some 6 := by decide +kernel
  obtain ⟨hbars, hsize, hindex⟩ := hall mappings (toOption_eq_some_iff.mpr hm)
  obtain ⟨hback, -, hbarless⟩ := @parse_renderOutput
    { managedNamespace := "a/", initialIndex := 5 } mappings _ hm [[], Assembly.queueBytes]
  have hout := hbarless fun bytes hb c hc => hbars bytes hb c (toOption_eq_some_iff.mpr hc)
  rw [hindex] at hback
  exact ⟨mappings, hm, hsize, hout, hback.mpr hout⟩

end MethodMetadata.Injector

namespace MethodMetadata.Assembly

/-- A class whose only method has a local variable with a bar in its name. -/
def barredBytes : List UInt8 :=
  let method : MemberSource :=
    { flags := 0x0008, name := "run", descriptor := "(I)V",
      code := some ⟨0, 1, [0xB1], [], some [⟨"a|b", "I", 0, 1, 0⟩], []⟩,
      exceptions := none, attributes := [] }
  (assemble { queueSource with methods := [method] }).toOption.getD []

end MethodMetadata.Assembly

namespace MethodMetadata.Injector

/-- A kept name with a bar is saved as it is, and the saved table cannot be read. -/
theorem parse_renderOutput_barred :
    let start := new { managedNamespace := "a/" } MappingTable.empty
    MappingTable.parse "" = .ok MappingTable.empty ∧
      (start.processClass Assembly.barredBytes).result.toOption.isSome ∧
      (start.after [Assembly.barredBytes]).output.toList = [("a/Queue.run(I)V", ⟨"", some "a|b"⟩)] ∧
      MappingTable.parse (start.after [Assembly.barredBytes]).renderOutput =
        .error ⟨1, .tooManyFields "|a|b"⟩ := by
  intro start
  have herror {error : Mapping.Error} {read : Except Mapping.Error MappingTable}
      (h : read.map MappingTable.toList = .error error) : read = .error error := by
    cases read with
    | error e => exact congrArg Except.error (Except.error.inj h)
    | ok table => cases h
  have heval : (start.processClass Assembly.barredBytes).result.toOption.isSome ∧
      (start.after [Assembly.barredBytes]).output.toList =
        [("a/Queue.run(I)V", ⟨"", some "a|b"⟩)] ∧
      (MappingTable.parse (start.after [Assembly.barredBytes]).renderOutput).map
        MappingTable.toList = .error ⟨1, .tooManyFields "|a|b"⟩ := by decide +kernel
  exact ⟨rfl, heval.1, heval.2.1, herror heval.2.2⟩

end MethodMetadata.Injector
