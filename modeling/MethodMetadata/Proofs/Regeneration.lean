import MethodMetadata.Proofs.OutputTables
import MethodMetadata.Proofs.Replay

/-! Generated names that were saved are given again as mapped names: a job that reads the saved
table and generates nothing makes the same class, and saves the same entries. -/
namespace MethodMetadata

def Settings.silent (settings : Settings) : Settings :=
  { settings with initialIndex := 0 }

namespace Injector

variable {owner : BinaryName}

private theorem told_of_generates {inj : Injector} {m : Method} {d : MethodDescriptor}
    (hg : inj.generates = true) (hown : inj.manages owner = true)
    (hunmapped : inj.entryFor owner m = none) (hd : d.parameters ≠ []) :
    inj.told owner m d ≠ ⟨"", some ""⟩ := by
  have hgiven : (inj.namesOf owner m d).1 ≠ none := fun hnone =>
    Bool.noConfusion (hg.symm.trans (namesOf_eq_none_iff.mp hnone).2)
  obtain ⟨parameters, hp⟩ := Option.ne_none_iff_exists'.mp hgiven
  rcases namesOf_cases hp with ⟨text, ht, -⟩ | ⟨-, hlength, hgen⟩
  · rw [hunmapped] at ht
    cases ht
  · intro hsilent
    have hempty := congrArg MappingEntry.parameters hsilent
    rw [told, if_pos hown, toldNames_eq hp fun name hn => (hgen name hn).ne_this] at hempty
    refine NameStem.join_generated_ne_empty hgen (fun hnil => hd ?_) (Option.some.inj hempty)
    rw [hnil] at hlength
    exact List.length_eq_zero_iff.mp hlength.symm

section

variable {state last : Injector} {items values : List Method}

private theorem isSome_get?_of_runs
    (h : Pass.Runs (processMethod owner) state items values last) {key : String}
    (hk : (state.output.get? key).isSome) : (last.output.get? key).isSome := by
  refine h.invariant (P := fun mid => (mid.output.get? key).isSome)
    (fun mid m _ m' hr hmid => ?_) hk
  obtain ⟨names, d, hres⟩ := processMethod_eq_ok_iff.mp ⟨hr, rfl⟩
  rw [hres.get?_output]
  split
  · rfl
  · exact hmid

/-- All methods have entries if all have parameters and names are generated for them. -/
theorem isSome_output_of_runs (h : Pass.Runs (processMethod owner) state items values last)
    (hg : state.generates = true) (hown : state.manages owner = true)
    (hunmapped : ∀ m ∈ items, state.entryFor owner m = none)
    (hparameters : ∀ m ∈ items, ∀ d, MethodDescriptor.ofText m.descriptor = .ok d →
      d.parameters ≠ []) :
    ∀ m ∈ items, (last.output.get? (keyText owner m)).isSome := by
  induction h with
  | nil => nofun
  | @cons state last m m' items values head tail ih =>
    obtain ⟨names, d, hres⟩ := processMethod_eq_ok_iff.mp ⟨head, rfl⟩
    have hjob : SameJob state (processMethod owner state m).state :=
      sameJob_processMethod ⟨rfl, rfl⟩ owner m
    have hspeaks := told_of_generates hg hown (hunmapped m List.mem_cons_self)
      (hparameters m List.mem_cons_self d hres.descriptor)
    intro m₁ hm
    rcases List.mem_cons.mp hm with rfl | hm
    · refine isSome_get?_of_runs tail ?_
      rw [hres.get?_output, if_pos ⟨rfl, hspeaks⟩]
      rfl
    · refine ih (hjob.generates_eq.trans hg) ((hjob.manages_eq owner).trans hown)
        (fun m₂ hm₂ => ?_) (fun m₂ hm₂ => ?_) m₁ hm
      · exact hjob.entryFor_eq.trans (hunmapped m₂ (List.mem_cons_of_mem _ hm₂))
      · exact hparameters m₂ (List.mem_cons_of_mem _ hm₂)

end

/-- Names are generated for a managed class, the output table is saved, and a job that generates
nothing reads it. If all methods have parameters and keys of their own, and no exception has a comma
or a bar in its name, the class that is made is the same to the byte, and so are the entries. -/
theorem processClass_saved {settings : Settings} {bytes made : List UInt8} {c : Class}
    (hpositive : 0 < settings.initialIndex) (hc : Class.parse bytes = .ok c)
    (hown : c.name.isWithin settings.managedNamespace = true)
    (hparameters : ∀ m ∈ c.methods, ∀ d, MethodDescriptor.ofText m.descriptor = .ok d →
      d.parameters ≠ [])
    (hkeys : (c.methods.map (keyText c.name)).Nodup)
    (hexceptions : ∀ m ∈ c.methods, ∀ name ∈ m.exceptions,
      ',' ∉ name.text.toList ∧ '|' ∉ name.text.toList)
    (h : ((new settings MappingTable.empty).processClass bytes).result = .ok made) :
    let first := ((new settings MappingTable.empty).processClass bytes).state
    ∃ table, MappingTable.parse first.renderOutput = .ok table ∧
      let again := (new settings.silent table).processClass bytes
      again.result = .ok made ∧ again.state.output.entries = first.output.entries := by
  intro first
  have hg : (new settings MappingTable.empty).generates = true := decide_eq_true hpositive
  have hunmapped (m : Method) : (new settings MappingTable.empty).entryFor c.name m = none :=
    MappingTable.get?_empty _
  have hbars : ∀ bytes' ∈ [bytes], ∀ c', Class.parse bytes' = .ok c' → ∀ m ∈ c'.methods,
      (new settings MappingTable.empty).BringsNoBars c'.name m := by
    intro bytes' hb c' hc' m hm
    obtain rfl := List.mem_singleton.mp hb
    obtain rfl := Except.ok.inj (hc.symm.trans hc')
    exact ⟨fun _ name hn => (hexceptions m hm name hn).2,
      fun _ hsilent => Bool.noConfusion (hg.symm.trans hsilent)⟩
  have hbarless : first.output.Barless := barless_output_after MappingTable.barless_empty hbars
  refine ⟨_, parse_renderOutput_of_barless hbarless, ?_⟩
  obtain ⟨_, edited, hc', he, hstate, hs⟩ := processClass_eq_ok_iff.mp ⟨h, rfl⟩
  obtain rfl := Except.ok.inj (hc.symm.trans hc')
  obtain ⟨methods, rfl, hr⟩ := runs_of_processMethods he
  rw [hstate] at hr
  have hrep : ∀ m ∈ c.methods, (new settings MappingTable.empty).Repeats c.name m := by
    refine fun m hm => ⟨fun _ name hn => (hexceptions m hm name hn).1, fun text ht => ?_,
      fun _ => hg⟩
    rw [hunmapped] at ht
    cases ht
  have hspace : SameNamespace (new settings MappingTable.empty)
      (new settings.silent ⟨first.output.entries, first.savedIndex⟩) := rfl
  have hentries := isSome_output_of_runs hr hg hown (fun m _ => hunmapped m) hparameters
  obtain ⟨left, hagain, houtput⟩ := runs_repeated hr hspace hown hkeys
    (fun m _ => output_new_get? settings _ _) (fun m _ => rfl) hrep fun m hm hnone => by
      cases hnone.symm.trans (Option.some_get (hentries m hm)).symm
  obtain ⟨hmethods, hleft⟩ := processMethods_of_runs hagain
  obtain ⟨hmade, hlast⟩ := processClass_eq_ok_iff.mpr ⟨c, _, hc, hmethods, hleft, hs⟩
  exact ⟨hmade, hlast ▸ congrArg MappingTable.entries (houtput rfl)⟩

/-- A class with a constructor that declares an exception, and with two other methods. -/
theorem processClass_saved_queue : ∃ c made,
    Class.parse Assembly.queueBytes = .ok c ∧ 0 < queueSettings.initialIndex ∧
      c.name.isWithin queueSettings.managedNamespace = true ∧
      (∀ m ∈ c.methods, ∀ d, MethodDescriptor.ofText m.descriptor = .ok d → d.parameters ≠ []) ∧
      (c.methods.map (keyText c.name)).Nodup ∧
      (∀ m ∈ c.methods, ∀ name ∈ m.exceptions,
        ',' ∉ name.text.toList ∧ '|' ∉ name.text.toList) ∧
      let first := (new queueSettings MappingTable.empty).processClass Assembly.queueBytes
      first.result = .ok made ∧
        ∃ table, MappingTable.parse first.state.renderOutput = .ok table ∧
          let again := (new queueSettings.silent table).processClass Assembly.queueBytes
          again.result = .ok made ∧ again.state.output.entries = first.state.output.entries := by
  have hclass : ∀ c ∈ (Class.parse Assembly.queueBytes).toOption,
      c.name.isWithin queueSettings.managedNamespace = true ∧
        (∀ m ∈ c.methods, ∀ d ∈ (MethodDescriptor.ofText m.descriptor).toOption,
          d.parameters ≠ []) ∧
        (c.methods.map (keyText c.name)).Nodup ∧
        ∀ m ∈ c.methods, ∀ name ∈ m.exceptions,
          ',' ∉ name.text.toList ∧ '|' ∉ name.text.toList := by decide +kernel
  have hmade : ((new queueSettings MappingTable.empty).processClass
      Assembly.queueBytes).result.toOption.isSome := by decide +kernel
  have hpositive : 0 < queueSettings.initialIndex := by decide
  obtain ⟨made, hmade⟩ := isSome_toOption_iff.mp hmade
  obtain ⟨c, edited, hc, -⟩ := processClass_eq_ok_iff.mp ⟨hmade, rfl⟩
  obtain ⟨hown, hcounts, hkeys, hexceptions⟩ := hclass c (toOption_eq_some_iff.mpr hc)
  have hparameters : ∀ m ∈ c.methods, ∀ d, MethodDescriptor.ofText m.descriptor = .ok d →
      d.parameters ≠ [] := fun m hm d hd => hcounts m hm d (toOption_eq_some_iff.mpr hd)
  exact ⟨c, made, hc, hpositive, hown, hparameters, hkeys, hexceptions, hmade,
    processClass_saved hpositive hc hown hparameters hkeys hexceptions hmade⟩

end Injector

end MethodMetadata
