import Mathlib.Data.List.Nodup
import MethodMetadata.Proofs.Jobs
import MethodMetadata.Proofs.Reports

/-! The index of a job goes up by one for each constructor that is named by it, until it reaches the
largest number. Up to there no two names are the same, and a later job that goes on with the index
makes none of them again. -/
namespace MethodMetadata

namespace NameStem

/-- The name of the parameter in a slot of a constructor with an index. -/
def indexedName (index slot : Nat) : String :=
  s!"p_i{index}_{slot}_"

private theorem names_constructor (index : UInt32) (first count : Nat) :
    (constructor index).names first count =
      (List.range' first count).map (indexedName index.toNat) :=
  rfl

private theorem underscore_not_mem (n : Nat) : '_' ∉ (toString n).toList := fun h =>
  Bool.noConfusion (Number.isDigit_of_mem_toString h)

/-- The digits of index and slot end at the underscores behind them. -/
theorem indexedName_inj {index index' slot slot' : Nat} :
    indexedName index slot = indexedName index' slot' ↔ index = index' ∧ slot = slot' := by
  refine ⟨fun h => ?_, fun h => by rw [h.1, h.2]⟩
  have hlist (i s : Nat) : (indexedName i s).toList =
      ['p', '_', 'i'] ++ ((toString i).toList ++ '_' :: ((toString s).toList ++ ['_'])) := by
    simp [indexedName, toString]
  have hchars := congrArg String.toList h
  rw [hlist, hlist, List.append_cancel_left_eq, append_separator_inj (underscore_not_mem _)
    (underscore_not_mem _), append_separator_inj (underscore_not_mem _) (underscore_not_mem _),
    String.toList_inj, String.toList_inj] at hchars
  exact ⟨Number.toString_injective hchars.1, Number.toString_injective hchars.2.1⟩

/-- The index counts on and stops at the largest. -/
theorem toNat_succIndex (index : UInt32) :
    (succIndex index).toNat = min (index.toNat + 1) (UInt32.size - 1) := by
  have := index.toNat_lt
  rw [succIndex, UInt32.toNat_ofNat']
  simp only [UInt32.size] at *
  omega

private theorem nextIndex_choose (managed : Bool) (index : UInt32) (method : UnqualifiedName)
    (count : Nat) : (choose managed index method).nextIndex count index =
      if method = UnqualifiedName.constructor ∧ managed = true ∧ count ≠ 0 then succIndex index
      else index := by
  unfold choose
  split
  next id hid =>
    rw [if_neg]
    · rfl
    · rintro ⟨rfl, -⟩
      have hnone : funcId? UnqualifiedName.constructor.text.toList = none := by decide
      cases hnone.symm.trans hid
  next =>
    by_cases hc : method = UnqualifiedName.constructor ∧ managed = true
    · rw [if_pos hc]
      by_cases hcount : count = 0
      · simp [nextIndex, hcount]
      · simp [nextIndex, hcount, hc]
    · rw [if_neg hc, if_neg fun h => hc ⟨h.1, h.2.1⟩]
      rfl

end NameStem

namespace Method

/-- The number of parameters in the descriptor; a text that is no descriptor has none. -/
def parameterCount (m : Method) : Nat :=
  ((MethodDescriptor.ofText m.descriptor).toOption.map (·.parameters.length)).getD 0

private theorem parameterCount_eq {m : Method} {d : MethodDescriptor}
    (h : MethodDescriptor.ofText m.descriptor = .ok d) :
    m.parameterCount = d.parameters.length := by
  rw [parameterCount, h]
  rfl

/-- The names with an index for all parameters, from the first slot behind the receiver on. -/
def indexedNames (m : Method) (index : Nat) : List String :=
  (List.range' m.receiverCount m.parameterCount).map (NameStem.indexedName index)

private theorem mem_indexedNames {m : Method} {index : Nat} {name : String}
    (h : name ∈ m.indexedNames index) :
    ∃ slot, NameStem.indexedName index slot = name := by
  obtain ⟨slot, -, hs⟩ := List.mem_map.mp h
  exact ⟨slot, hs⟩

private theorem nodup_indexedNames (m : Method) (index : Nat) : (m.indexedNames index).Nodup :=
  List.Nodup.map (fun _ _ h => (NameStem.indexedName_inj.mp h).2) (List.nodup_range' 1)

end Method

namespace Injector

variable {inj inj' : Injector} {owner : BinaryName} {m m' : Method} {names : List BinaryName}
  {d : MethodDescriptor}

/-- A constructor of a managed class that has parameters, for which no names are mapped. -/
structure Counted (inj : Injector) (item : OwnedMethod) : Prop where
  constructor : item.method.name = UnqualifiedName.constructor
  managed : inj.manages item.owner = true
  parametrized : item.method.parameterCount ≠ 0
  unnamed : (inj.entryFor item.owner item.method).bind (·.parameters) = none

instance (inj : Injector) : DecidablePred inj.Counted := fun item =>
  decidable_of_iff
    (item.method.name = UnqualifiedName.constructor ∧ inj.manages item.owner = true ∧
      item.method.parameterCount ≠ 0 ∧
      (inj.entryFor item.owner item.method).bind (·.parameters) = none)
    ⟨fun h => ⟨h.1, h.2.1, h.2.2.1, h.2.2.2⟩,
      fun h => ⟨h.constructor, h.managed, h.parametrized, h.unnamed⟩⟩

private theorem SameJob.counted_iff (h : SameJob inj inj') (item : OwnedMethod) :
    inj'.Counted item ↔ inj.Counted item := by
  obtain ⟨settings, mappings, output, index⟩ := inj'
  obtain ⟨rfl, rfl⟩ := h
  exact ⟨fun h => ⟨h.1, h.2, h.3, h.4⟩, fun h => ⟨h.1, h.2, h.3, h.4⟩⟩

private theorem sameJob_processOwned (h : SameJob inj inj') (item : OwnedMethod) :
    SameJob inj (processOwned inj' item).state :=
  sameJob_processMethod h item.owner item.method

theorem collect_index (inj : Injector) (key exceptions parameters : String) :
    (inj.collect key exceptions parameters).index = inj.index := by
  unfold collect
  split <;> rfl

private theorem parameterNames_snd (inj : Injector) (owner : BinaryName) (m : Method) (count : Nat)
    (mapped : Option String) :
    (inj.parameterNames owner m count mapped).2 =
      if inj.generates = true ∧ mapped = none ∧ m.name = UnqualifiedName.constructor ∧
        inj.manages owner = true ∧ count ≠ 0 then NameStem.succIndex inj.index
      else inj.index := by
  unfold parameterNames
  cases mapped with
  | some text => exact (if_neg fun h => Option.some_ne_none text h.2.1).symm
  | none =>
    by_cases hg : inj.generates = true
    · simp only [hg, if_true, NameStem.nextIndex_choose, true_and]
    · rw [if_neg hg, if_neg fun h => hg h.1]

private theorem namesOf_snd (hd : MethodDescriptor.ofText m.descriptor = .ok d) :
    (inj.namesOf owner m d).2 =
      if inj.generates = true ∧ inj.Counted ⟨owner, m⟩ then NameStem.succIndex inj.index
      else inj.index := by
  have hcount := Method.parameterCount_eq hd
  rw [namesOf, parameterNames_snd]
  refine if_congr (and_congr_right fun _ => ⟨fun ⟨hp, hn, hown, hc⟩ => ?_, fun h => ?_⟩) rfl rfl
  · exact ⟨hn, hown, hcount ▸ hc, hp⟩
  · exact ⟨h.unnamed, h.constructor, h.managed, hcount ▸ h.parametrized⟩

private theorem Resolves.index_eq (h : Resolves inj owner m names d m' inj') :
    inj'.index = if inj.generates = true ∧ inj.Counted ⟨owner, m⟩ then
      NameStem.succIndex inj.index else inj.index := by
  rw [← h.injector, collect_index, ← namesOf_snd h.descriptor]

/-- The parameters of a method have names, in its body, if it has one, and in the output table. -/
structure HasNames (owner : BinaryName) (m m' : Method) (after : Injector)
    (parameters : List String) : Prop where
  body : m'.code.isSome = m.code.isSome
  locals : ∀ code ∈ m'.code,
    code.locals.map (·.name) = (if m.isStatic then [] else ["this"]) ++ parameters
  told : ∃ exceptions,
    after.output.get? (keyText owner m) = some ⟨exceptions, some (CommaList.join parameters)⟩

private theorem Counted.choose_eq (h : inj.Counted ⟨owner, m⟩) :
    NameStem.choose (inj.manages owner) inj.index m.name = .constructor inj.index := by
  have hnone : NameStem.funcId? UnqualifiedName.constructor.text.toList = none := by decide
  have hname : m.name = UnqualifiedName.constructor := h.constructor
  rw [NameStem.choose, hname, hnone]
  exact if_pos ⟨rfl, h.managed⟩

private theorem Counted.namesOf_fst (h : inj.Counted ⟨owner, m⟩) (hg : inj.generates = true)
    (hd : MethodDescriptor.ofText m.descriptor = .ok d) :
    (inj.namesOf owner m d).1 = some (m.indexedNames inj.index.toNat) := by
  have hindex : 0 < inj.settings.initialIndex := of_decide_eq_true hg
  have hunnamed : (inj.entryFor owner m).bind (·.parameters) = none := h.unnamed
  rw [Injector.namesOf_fst, hunnamed, h.choose_eq, ← Method.parameterCount_eq hd,
    NameStem.names_constructor]
  exact if_pos hindex

/-- A counted constructor is given the names with the index. -/
theorem Resolves.hasNames (h : Resolves inj owner m names d m' inj') (hg : inj.generates = true)
    (hc : inj.Counted ⟨owner, m⟩) :
    HasNames owner m m' inj' (m.indexedNames inj.index.toNat) := by
  have hnames := hc.namesOf_fst hg h.descriptor
  have hlength := h.counted _ hnames
  have hgenerated : ∀ name ∈ m.indexedNames inj.index.toNat, NameStem.Generated name := by
    rcases namesOf_cases hnames with ⟨text, ht, -⟩ | ⟨-, -, hgen⟩
    · cases ht.symm.trans hc.unnamed
    · exact hgen
  have htold := toldNames_eq hnames fun name hn => (hgenerated name hn).ne_this
  have hspeaks : CommaList.join (m.indexedNames inj.index.toNat) ≠ "" := by
    refine NameStem.join_generated_ne_empty hgenerated fun hempty => hc.parametrized ?_
    have hzero := congrArg List.length hempty
    rwa [Method.indexedNames, List.length_map, List.length_range'] at hzero
  have hcode : m'.code =
      m.code.map (·.replaceLocals (argumentRows owner m d (m.indexedNames inj.index.toNat))) := by
    rw [← h.method, rowsOf, hnames]
    rfl
  refine ⟨by rw [hcode, Option.isSome_map], fun code hm => ?_, ?_⟩
  · rw [hcode] at hm
    obtain ⟨before, -, rfl⟩ := Option.map_eq_some_iff.mp hm
    exact map_name_argumentTable m hlength
  · have hentry : inj.told owner m d =
        ⟨((inj.entryFor owner m).map (·.exceptions)).getD (declared m),
          some (CommaList.join (m.indexedNames inj.index.toNat))⟩ := by
      rw [told, if_pos hc.managed, htold]
    refine ⟨((inj.entryFor owner m).map (·.exceptions)).getD (declared m), ?_⟩
    rw [h.get?_output, hentry, if_pos]
    refine ⟨rfl, fun he => hspeaks ?_⟩
    exact Option.some.inj (congrArg MappingEntry.parameters he)

private theorem toNat_index_processOwned {item : OwnedMethod} {value : Method}
    (h : (processOwned inj item).result = .ok value) (hg : inj.generates = true) :
    (processOwned inj item).state.index.toNat =
      min (inj.index.toNat + if inj.Counted item then 1 else 0) (UInt32.size - 1) := by
  obtain ⟨names, d, hres⟩ := processMethod_eq_ok_iff.mp ⟨h, rfl⟩
  rw [processOwned, hres.index_eq]
  by_cases hc : inj.Counted item
  · rw [if_pos ⟨hg, hc⟩, if_pos hc, NameStem.toNat_succIndex]
  · rw [if_neg fun h => hc h.2, if_neg hc]
    have := inj.index.toNat_lt
    simp only [UInt32.size]
    omega

def countedIn (inj : Injector) (items : List OwnedMethod) : Nat :=
  (items.filter inj.Counted).length

private theorem SameJob.countedIn_eq (h : SameJob inj inj') (items : List OwnedMethod) :
    inj'.countedIn items = inj.countedIn items :=
  congrArg List.length (List.filter_congr fun item _ => decide_eq_decide.mpr (h.counted_iff item))

private theorem countedIn_cons (inj : Injector) (item : OwnedMethod) (items : List OwnedMethod) :
    inj.countedIn (item :: items) =
      (if inj.Counted item then 1 else 0) + (processOwned inj item).state.countedIn items := by
  rw [(sameJob_processOwned ⟨rfl, rfl⟩ item).countedIn_eq, countedIn, countedIn, List.filter_cons]
  by_cases hc : inj.Counted item <;> simp [hc, Nat.add_comm]

/-- A pass counts the index up once for each counted constructor. -/
theorem toNat_index_of_runs {last : Injector} {items : List OwnedMethod} {values : List Method}
    (h : Pass.Runs processOwned inj items values last) (hg : inj.generates = true) :
    last.index.toNat = min (inj.index.toNat + inj.countedIn items) (UInt32.size - 1) := by
  induction h with
  | @nil inj =>
    have := inj.index.toNat_lt
    simp only [countedIn, List.filter_nil, List.length_nil, UInt32.size]
    omega
  | @cons inj last item value items values head tail ih =>
    have hnext := toNat_index_processOwned head hg
    rw [ih ((sameJob_processOwned ⟨rfl, rfl⟩ item).generates_eq.trans hg), countedIn_cons]
    omega

private theorem index_resolveParameters (inj : Injector) (owner : BinaryName) (m : Method)
    (mapped : Option String) :
    (inj.resolveParameters owner m mapped).state.1.index = inj.index ∨ inj.generates = true ∧
      (inj.resolveParameters owner m mapped).state.1.index = NameStem.succIndex inj.index := by
  have hnames (count : Nat) : (inj.parameterNames owner m count mapped).2 = inj.index ∨
      inj.generates = true ∧
        (inj.parameterNames owner m count mapped).2 = NameStem.succIndex inj.index := by
    rw [parameterNames_snd]
    split
    next h => exact .inr ⟨h.1, rfl⟩
    next => exact .inl rfl
  unfold resolveParameters
  split
  next => exact .inl rfl
  next d _ =>
    have hd := hnames d.parameters.length
    split
    next => exact .inl rfl
    next hanswer =>
      rw [hanswer] at hd
      dsimp only
      split <;> exact hd

/-- A method leaves the index as it is or counts it up, whether it is resolved or fails. -/
theorem index_processMethod (inj : Injector) (owner : BinaryName) (m : Method) :
    (processMethod owner inj m).state.index = inj.index ∨ inj.generates = true ∧
      (processMethod owner inj m).state.index = NameStem.succIndex inj.index := by
  unfold processMethod
  dsimp only
  split
  next => exact .inl rfl
  next =>
    split
    next => exact index_resolveParameters inj owner _ _
    next =>
      rw [collect_index]
      exact index_resolveParameters inj owner _ _

/-- A job that generates no names never changes the index, not even by a class that fails. -/
theorem index_after (hg : inj.generates = false) (classes : List (List UInt8)) :
    (inj.after classes).index = inj.index := by
  induction classes generalizing inj with
  | nil => rfl
  | cons bytes classes ih =>
    have hjob := sameJob_processClass inj bytes
    refine (ih (hjob.generates_eq.trans hg)).trans ?_
    rw [state_processClass]
    cases Class.parse bytes with
    | error e => rfl
    | ok c =>
      have hstep (state : Injector) (m : Method)
          (hs : SameJob inj state ∧ state.index = inj.index) :
          SameJob inj (processMethod c.name state m).state ∧
            (processMethod c.name state m).state.index = inj.index := by
        refine ⟨sameJob_processMethod hs.1 c.name m, ?_⟩
        rcases index_processMethod state c.name m with hsame | ⟨hgen, -⟩
        · exact hsame.trans hs.2
        · cases (hs.1.generates_eq.trans hg).symm.trans hgen
      exact (Pass.run_invariant hstep ⟨⟨rfl, rfl⟩, rfl⟩ c.methods).2

/-- A pass that succeeds leaves what processing its classes in turn leaves. -/
theorem after_of_runs {last : Injector} {classes made : List (List UInt8)}
    (h : Pass.Runs processClass inj classes made last) : inj.after classes = last := by
  induction h with
  | nil => rfl
  | cons head tail ih => exact ih

/-- The names that a job generates for constructors, in the order of their methods. -/
def constructorNames (inj : Injector) : List OwnedMethod → List String
  | [] => []
  | item :: items =>
    (if inj.Counted item then item.method.indexedNames inj.index.toNat else []) ++
      constructorNames (processOwned inj item).state items

private theorem mem_constructorNames_cons {item : OwnedMethod} {items : List OwnedMethod}
    {name : String} (h : name ∈ constructorNames inj (item :: items)) :
    inj.Counted item ∧ name ∈ item.method.indexedNames inj.index.toNat ∨
      name ∈ constructorNames (processOwned inj item).state items := by
  rw [constructorNames, List.mem_append] at h
  refine h.imp_left fun hhead => ?_
  split at hhead
  next hc => exact ⟨hc, hhead⟩
  next => cases hhead

private theorem le_index_of_mem_constructorNames {items : List OwnedMethod} {name : String}
    (h : name ∈ constructorNames inj items) :
    ∃ index slot, inj.index.toNat ≤ index ∧ NameStem.indexedName index slot = name := by
  induction items generalizing inj with
  | nil => cases h
  | cons item items ih =>
    rcases mem_constructorNames_cons h with ⟨-, hhead⟩ | htail
    · obtain ⟨slot, hs⟩ := Method.mem_indexedNames hhead
      exact ⟨_, slot, Nat.le_refl _, hs⟩
    · obtain ⟨index, slot, hle, hs⟩ := ih htail
      refine ⟨index, slot, Nat.le_trans ?_ hle, hs⟩
      have := inj.index.toNat_lt
      rcases index_processMethod inj item.owner item.method with hsame | ⟨-, hnext⟩
      · exact Nat.le_of_eq (congrArg UInt32.toNat hsame).symm
      · rw [processOwned, hnext, NameStem.toNat_succIndex]
        simp only [UInt32.size]
        omega

/-- Below the largest index, a job makes names with indices below the one that it ends with, and
none of them twice. -/
theorem constructorNames_of_runs {last : Injector} {items : List OwnedMethod} {values : List Method}
    (h : Pass.Runs processOwned inj items values last) (hg : inj.generates = true)
    (hfit : inj.index.toNat + inj.countedIn items ≤ UInt32.size - 1) :
    (constructorNames inj items).Nodup ∧ ∀ name ∈ constructorNames inj items,
      ∃ index slot, index < last.index.toNat ∧ NameStem.indexedName index slot = name := by
  have hlast := toNat_index_of_runs h hg
  induction h with
  | nil => exact ⟨List.nodup_nil, nofun⟩
  | @cons inj last item value items values head tail ih =>
    have hgen := (sameJob_processOwned ⟨rfl, rfl⟩ item).generates_eq.trans hg
    have hnext := toNat_index_processOwned head hg
    rw [countedIn_cons] at hfit hlast
    obtain ⟨hnodup, hbelow⟩ := ih hgen (by omega) (toNat_index_of_runs tail hgen)
    rw [constructorNames]
    by_cases hc : inj.Counted item
    · rw [if_pos hc] at hnext hfit hlast ⊢
      refine ⟨List.nodup_append'.mpr ⟨Method.nodup_indexedNames _ _, hnodup, ?_⟩, ?_⟩
      · -- The names behind this method have an index above its own.
        intro name hhead htail
        obtain ⟨slot, rfl⟩ := Method.mem_indexedNames hhead
        obtain ⟨index, slot', hle, heq⟩ := le_index_of_mem_constructorNames htail
        have hsame := (NameStem.indexedName_inj.mp heq).1
        omega
      · refine fun name hn => (List.mem_append.mp hn).elim (fun hhead => ?_) (hbelow name)
        obtain ⟨slot, hs⟩ := Method.mem_indexedNames hhead
        exact ⟨_, slot, by omega, hs⟩
    · rw [if_neg hc, List.nil_append]
      exact ⟨hnodup, hbelow⟩

/-- Which index the method at a place of a job takes, and what it comes to. -/
structure IndexedAt (first : Injector) (items : List OwnedMethod) (i : Nat) (item : OwnedMethod)
    (value : Method) : Prop where
  index : (Pass.run processOwned first (items.take i)).state.index.toNat =
    min (first.index.toNat + first.countedIn (items.take i)) (UInt32.size - 1)
  counted : first.Counted item → HasNames item.owner item.method value
    (Pass.run processOwned first (items.take (i + 1))).state
    (item.method.indexedNames
      (min (first.index.toNat + first.countedIn (items.take i)) (UInt32.size - 1)))
  other : ¬first.Counted item →
    (Pass.run processOwned first (items.take (i + 1))).state.index =
      (Pass.run processOwned first (items.take i)).state.index

private theorem indexedAt_of_runs {last : Injector} {items : List OwnedMethod} {made : List Method}
    (h : Pass.Runs processOwned inj items made last) (hg : inj.generates = true) {i : Nat}
    {item : OwnedMethod} {value : Method} (hi : items[i]? = some item)
    (hv : made[i]? = some value) :
    IndexedAt inj items i item value := by
  obtain ⟨hitem, rfl⟩ := List.getElem?_eq_some_iff.mp hi
  obtain ⟨hvalue, rfl⟩ := List.getElem?_eq_some_iff.mp hv
  have hjob : SameJob inj (Pass.run processOwned inj (items.take i)).state :=
    Pass.run_invariant (P := inj.SameJob) (fun _ item hs => sameJob_processOwned hs item)
      ⟨rfl, rfl⟩ _
  have hindex := toNat_index_of_runs (h.take i) hg
  obtain ⟨names, d, hres⟩ := processMethod_eq_ok_iff.mp ⟨h.at_index i hitem hvalue, rfl⟩
  have hgen := hjob.generates_eq.trans hg
  refine ⟨hindex, fun hc => ?_, fun hc => ?_⟩
  · rw [h.state_take_succ i hitem, ← hindex]
    exact hres.hasNames hgen ((hjob.counted_iff _).mpr hc)
  · rw [h.state_take_succ i hitem, processOwned, hres.index_eq,
      if_neg fun h => hc ((hjob.counted_iff _).mp h.2)]

/-- In a job that generates names and succeeds, the counted constructors take the indices from the
initial one on, and no other method takes any, until the largest index is reached. If it was not
needed twice, the constructors have names of their own, also in any later job that starts with the
index in the output table. A job that generates no names leaves the index at zero. -/
theorem after_indices {settings : Settings} {mappings : MappingTable}
    {classes made : List (List UInt8)}
    (h : (Pass.run processClass (new settings mappings) classes).result = .ok made) :
    let first := new settings mappings
    let last := first.after classes
    let items := methodsIn classes
    let past := settings.initialIndex.toNat + first.countedIn items
    (settings.initialIndex = 0 → ∀ others, (first.after others).index = 0) ∧
      (0 < settings.initialIndex →
        (∃ edited, List.Forall₂ Edited classes edited ∧
          List.Forall₂ (fun c bytes => Class.serialize c = .ok bytes) edited made ∧
          (edited.flatMap (·.methods)).length = items.length ∧
          ∀ i item value, items[i]? = some item → (edited.flatMap (·.methods))[i]? = some value →
            IndexedAt first items i item value) ∧
        last.index.toNat = min past (UInt32.size - 1) ∧
        last.outputHeader = some (MappingTable.maxIndexHeader last.index) ∧
        (past ≤ UInt32.size - 1 → (constructorNames first items).Nodup ∧
          ∀ later others table, last.index ≤ later.initialIndex →
            List.Disjoint (constructorNames first items)
              (constructorNames (new later table) (methodsIn others)))) := by
  intro first last items past
  refine ⟨fun hzero others => ?_, fun hpositive => ?_⟩
  · have hg : first.generates = false :=
      decide_eq_false fun hpositive => Nat.lt_irrefl 0 (hzero ▸ hpositive : (0 : UInt32) < 0)
    exact (index_after hg others).trans hzero
  · have hg : first.generates = true := decide_eq_true hpositive
    obtain ⟨edited, hedited, hmade, hruns⟩ := runs_methodsIn (Pass.runs_of_run h)
    rw [← after_of_runs (Pass.runs_of_run h)] at hruns
    refine ⟨⟨edited, hedited, hmade, hruns.length_eq, fun _ _ _ hi hv =>
        indexedAt_of_runs hruns hg hi hv⟩,
      toNat_index_of_runs hruns hg, ?_, fun hfit => ?_⟩
    · rw [outputHeader, if_pos ((sameJob_after first classes).generates_eq.trans hg)]
    · obtain ⟨hnodup, hbelow⟩ := constructorNames_of_runs hruns hg hfit
      refine ⟨hnodup, fun later others table hle name hn hn' => ?_⟩
      obtain ⟨index, slot, hlt, rfl⟩ := hbelow name hn
      obtain ⟨index', slot', hle', heq⟩ := le_index_of_mem_constructorNames hn'
      obtain rfl := (NameStem.indexedName_inj.mp heq).1
      exact absurd (Nat.lt_of_lt_of_le hlt hle) (Nat.not_lt.mpr hle')

/-- A job on one class twice, whose constructor has two parameters. -/
def queueJob : List (List UInt8) :=
  [Assembly.queueBytes, Assembly.queueBytes]

private theorem queueJob_succeeds :
    (Pass.run processClass (new queueSettings MappingTable.empty) queueJob).result.toOption
      |>.isSome := by
  decide +kernel

private theorem queueJob_names :
    (new queueSettings MappingTable.empty).countedIn (methodsIn queueJob) = 2 ∧
      ((new queueSettings MappingTable.empty).after queueJob).index = 3 ∧
      constructorNames (new queueSettings MappingTable.empty) (methodsIn queueJob) =
        ["p_i1_1_", "p_i1_2_", "p_i2_1_", "p_i2_2_"] := by
  decide +kernel

/-- The job, and a later one that goes on with the index that it ends with. -/
theorem after_indices_queue : ∃ made,
    (Pass.run processClass (new queueSettings MappingTable.empty) queueJob).result = .ok made ∧
      0 < queueSettings.initialIndex ∧
      (∃ edited, List.Forall₂ Edited queueJob edited ∧ ∀ i item value,
        (methodsIn queueJob)[i]? = some item → (edited.flatMap (·.methods))[i]? = some value →
          IndexedAt (new queueSettings MappingTable.empty) (methodsIn queueJob) i item value) ∧
      ((new queueSettings MappingTable.empty).after queueJob).outputHeader =
        some (MappingTable.maxIndexHeader 3) ∧
      constructorNames (new queueSettings MappingTable.empty) (methodsIn queueJob) =
        ["p_i1_1_", "p_i1_2_", "p_i2_1_", "p_i2_2_"] ∧
      List.Disjoint (constructorNames (new queueSettings MappingTable.empty) (methodsIn queueJob))
        (constructorNames (new { queueSettings with initialIndex := 3 } MappingTable.empty)
          (methodsIn queueJob)) := by
  obtain ⟨hcounted, hindex, hnames⟩ := queueJob_names
  obtain ⟨made, hmade⟩ := isSome_toOption_iff.mp queueJob_succeeds
  have hpositive : 0 < queueSettings.initialIndex := by decide
  obtain ⟨⟨edited, hedited, -, -, hat⟩, -, hheader, hfresh⟩ := (after_indices hmade).2 hpositive
  rw [hcounted] at hfresh
  rw [hindex] at hheader hfresh
  have hdisjoint := (hfresh (by decide)).2 { queueSettings with initialIndex := 3 } queueJob
    MappingTable.empty (by decide)
  exact ⟨made, hmade, hpositive, ⟨edited, hedited, hat⟩, hheader, hnames, hdisjoint⟩

end Injector

end MethodMetadata
