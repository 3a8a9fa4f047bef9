import Mathlib.Data.List.Nodup
import MethodMetadata.Injector.Basic
import MethodMetadata.Proofs.Numbers
import MethodMetadata.Proofs.Splitting

/-! Generated names. They are made of few characters, and a name tells its slot and the stem that it
was made from. -/
namespace MethodMetadata.NameStem

private theorem takeWhile_append_drop {separator : Char} {text : List Char}
    (h : text.drop ((text.takeWhile (· ≠ separator)).length + 1) ≠ []) :
    text.takeWhile (· ≠ separator) ++
      separator :: text.drop ((text.takeWhile (· ≠ separator)).length + 1) = text := by
  induction text with
  | nil => cases h rfl
  | cons c text ih =>
    by_cases hc : c = separator
    · simp [hc]
    · simp only [List.takeWhile_cons, hc, ne_eq, not_false_eq_true, decide_true, if_true,
        List.length_cons, List.drop_succ_cons, List.cons_append] at h ⊢
      rw [ih h]

/-- The number in the name of a method is what stands between the mark and the next underscore, if
those are digits and the name goes on. -/
theorem funcId?_eq_some_iff {text id : List Char} :
    funcId? text = some id ↔ id ≠ [] ∧ (∀ c ∈ id, c.isDigit = true) ∧
      ∃ rest, rest ≠ [] ∧ text = funcMark ++ (id ++ '_' :: rest) := by
  constructor
  · intro h
    unfold funcId? at h
    split at h
    next hmark =>
      obtain ⟨behind, rfl⟩ := List.isPrefixOf_iff_prefix.mp hmark
      rw [List.drop_left] at h
      dsimp only at h
      split at h
      next => cases h
      next hid =>
        obtain rfl := Option.some.inj h
        simp only [Bool.or_eq_true, not_or, Bool.not_eq_true, Bool.not_eq_false',
          List.isEmpty_eq_false_iff] at hid
        obtain ⟨⟨hne, hrest⟩, hdigits⟩ := hid
        exact ⟨hne, fun c hc => Number.isSome_digit?_iff.mp (List.all_eq_true.mp hdigits c hc), _,
          hrest, congrArg (funcMark ++ ·) (takeWhile_append_drop hrest).symm⟩
    next => cases h
  · rintro ⟨hne, hdigits, rest, hrest, rfl⟩
    have hmark : funcMark.isPrefixOf (funcMark ++ (id ++ '_' :: rest)) = true :=
      List.isPrefixOf_iff_prefix.mpr (List.prefix_append _ _)
    have hid : (id ++ '_' :: rest).takeWhile (· ≠ '_') = id := by
      rw [List.takeWhile_append_of_pos, List.takeWhile_cons_of_neg (by decide), List.append_nil]
      intro c hc
      refine decide_eq_true ?_
      rintro rfl
      cases hdigits '_' hc
    have hbehind : (id ++ '_' :: rest).drop (id.length + 1) = rest := by
      rw [← List.drop_drop, List.drop_left, List.drop_succ_cons, List.drop_zero]
    have hall : id.all (fun c => (Number.digit? c).isSome) = true :=
      List.all_eq_true.mpr fun c hc => Number.isSome_digit?_iff.mpr (hdigits c hc)
    simp only [funcId?, hmark, if_true, List.drop_left, hid, hbehind, hall]
    simp [hne, hrest]

/-- Only a number in its name makes the name of a method the stem. -/
theorem choose_eq_func_iff {managed : Bool} {index : UInt32} {method : UnqualifiedName}
    {id : String} : choose managed index method = .func id ↔
      id ≠ "" ∧ (∀ c ∈ id.toList, c.isDigit = true) ∧
        ∃ rest, rest ≠ "" ∧ method.text = "func_" ++ id ++ "_" ++ rest := by
  have hchoose : choose managed index method = .func id ↔
      funcId? method.text.toList = some id.toList := by
    unfold choose
    cases hid : funcId? method.text.toList with
    | some digits =>
      rw [func.injEq, Option.some.injEq, ← String.toList_inj, String.toList_ofList]
    | none =>
      refine iff_of_false ?_ nofun
      dsimp only
      split <;> nofun
  have hne {text : String} : text.toList ≠ [] ↔ text ≠ "" := by simp
  rw [hchoose, funcId?_eq_some_iff, hne]
  refine and_congr_right fun _ => and_congr_right fun _ => ⟨?_, ?_⟩
  · rintro ⟨rest, hrest, ht⟩
    refine ⟨String.ofList rest, by simpa using hrest, String.toList_inj.mp ?_⟩
    simpa [funcMark] using ht
  · rintro ⟨rest, hrest, ht⟩
    exact ⟨rest.toList, hne.mpr hrest, by simp [ht, funcMark]⟩

theorem length_names (stem : NameStem) (first count : Nat) :
    (stem.names first count).length = count := by
  simp [names]

private theorem toList_name (stem : NameStem) (slot : Nat) :
    (stem.name slot).toList = match stem with
      | .func id => ['p', '_'] ++ id.toList ++ ['_'] ++ (toString slot).toList ++ ['_']
      | .constructor index => ['p', '_', 'i'] ++ (toString index.toNat).toList ++ ['_'] ++
          (toString slot).toList ++ ['_']
      | .plain => ['p', 'a', 'r'] ++ (toString slot).toList := by
  cases stem <;> simp [name, toString]

/-- A name tells its slot. -/
theorem name_injective (stem : NameStem) : Function.Injective stem.name := by
  intro slot slot' h
  have hchars := congrArg String.toList h
  rw [toList_name, toList_name] at hchars
  refine Number.toString_injective (String.toList_inj.mp ?_)
  cases stem with
  | plain => exact List.append_cancel_left hchars
  | func id => exact List.append_cancel_left (List.append_cancel_right hchars)
  | constructor index => exact List.append_cancel_left (List.append_cancel_right hchars)

private theorem nodup_names (stem : NameStem) (first count : Nat) :
    (stem.names first count).Nodup :=
  List.Nodup.map stem.name_injective (List.nodup_range' 1)

/-- A name with an index is none with a number from the name of a method: where the one has the
letter, the other has a digit, or already the underscore. -/
theorem name_constructor_ne_name_func (index : UInt32) {id : String}
    (h : ∀ c ∈ id.toList, c.isDigit = true) (slot slot' : Nat) :
    (constructor index).name slot ≠ (func id).name slot' := by
  intro he
  have hchars := congrArg String.toList he
  rw [toList_name, toList_name] at hchars
  cases hid : id.toList with
  | nil => simp [hid] at hchars
  | cons c digits =>
    have hc : c = 'i' := by
      simp [hid] at hchars
      exact hchars.1.symm
    have hdigit := h c (hid ▸ List.mem_cons_self)
    rw [hc] at hdigit
    cases hdigit

private theorem name_constructor_ne_name_plain (index : UInt32) (slot slot' : Nat) :
    (constructor index).name slot ≠ plain.name slot' := by
  intro he
  have hchars := congrArg String.toList he
  rw [toList_name, toList_name] at hchars
  simp at hchars

/-- A name as names are generated: it is not empty, and made of few characters. -/
structure Generated (name : String) : Prop where
  ne_empty : name ≠ ""
  chars : ∀ c ∈ name.toList, c.isDigit = true ∨ c ∈ ['p', '_', 'i', 'a', 'r']

/-- Whatever stem is chosen, its names are generated ones. -/
theorem generated_choose (managed : Bool) (index : UInt32) (method : UnqualifiedName)
    (slot : Nat) : Generated ((choose managed index method).name slot) := by
  have hid (id : String) (hs : choose managed index method = .func id) (c : Char) :
      c ∈ id.toList → c.isDigit = true := (choose_eq_func_iff.mp hs).2.1 c
  have hnumber (n : Nat) (c : Char) : c ∈ (toString n).toList → c.isDigit = true :=
    Number.isDigit_of_mem_toString
  generalize choose managed index method = stem at hid
  constructor
  · intro he
    have hlist := congrArg String.toList he
    rw [toList_name] at hlist
    cases stem <;> simp at hlist
  · intro c hc
    rw [toList_name] at hc
    cases stem <;> simp only [List.mem_append, List.mem_cons] at hc ⊢ <;> grind

/-- No generated name is that of the receiver. -/
theorem Generated.ne_this {name : String} (h : Generated name) :
    name ≠ UnqualifiedName.this.text := by
  rintro rfl
  exact absurd (h.chars 't' (by decide)) (by decide)

/-- Generated names have no commas, so a comma list of them comes apart as it was joined. -/
theorem split_join_generated {names : List String}
    (h : ∀ name ∈ names, Generated name) : CommaList.split (CommaList.join names) = names := by
  refine CommaList.split_of_join (fun name hn hc => ?_) fun hone => ?_
  · exact absurd ((h name hn).chars ',' hc) (by decide)
  · exact (h "" (hone ▸ List.mem_singleton_self "")).ne_empty rfl

theorem join_generated_ne_empty {names : List String} (h : ∀ name ∈ names, Generated name)
    (hnames : names ≠ []) : CommaList.join names ≠ "" := by
  intro he
  have hsplit := split_join_generated h
  rw [he] at hsplit
  exact hnames hsplit.symm

/-- A method is given one name for each slot. They are all different, and none is that of the
receiver or has what separates names or fields in a mapping file. The name of the method is their
stem exactly if it has a number, and a name with an index is made from no other stem. -/
theorem names_choose (inj : Injector) (owner : BinaryName) (method : UnqualifiedName) :
    let stem := choose (inj.manages owner) inj.index method
    (∀ offset len, offset ≤ len →
      (stem.names offset (len - offset)).length = len - offset ∧
        (stem.names offset (len - offset)).Nodup ∧
        ∀ name ∈ stem.names offset (len - offset),
          name ≠ "this" ∧ ',' ∉ name.toList ∧ '|' ∉ name.toList) ∧
      (∀ id, stem = .func id ↔ id ≠ "" ∧ (∀ c ∈ id.toList, c.isDigit = true) ∧
        ∃ rest, rest ≠ "" ∧ method.text = "func_" ++ id ++ "_" ++ rest) ∧
      ∀ index id, (∀ c ∈ id.toList, c.isDigit = true) → ∀ slot slot',
        (constructor index).name slot ≠ (func id).name slot' ∧
          (constructor index).name slot ≠ plain.name slot' := by
  intro stem
  refine ⟨fun offset len _ => ⟨stem.length_names _ _, stem.nodup_names _ _, fun name hn => ?_⟩,
    fun id => choose_eq_func_iff, fun index id hid slot slot' =>
      ⟨name_constructor_ne_name_func index hid slot slot',
        name_constructor_ne_name_plain index slot slot'⟩⟩
  obtain ⟨slot, -, rfl⟩ := List.mem_map.mp hn
  have hname : Generated (stem.name slot) := generated_choose _ _ _ slot
  refine ⟨hname.ne_this, fun hc => ?_, fun hc => ?_⟩
  · exact absurd (hname.chars ',' hc) (by decide)
  · exact absurd (hname.chars '|' hc) (by decide)

/-- A method whose number has zeros in front and is followed by another one. -/
theorem names_choose_numbered :
    let inj := Injector.new { initialIndex := 7 } MappingTable.empty
    let method : UnqualifiedName := ⟨"func_007_1_b", by decide⟩
    let stem := choose (inj.manages BinaryName.object) inj.index method
    1 ≤ 3 ∧ (∀ c ∈ "007".toList, c.isDigit = true) ∧ stem = .func "007" ∧
      stem.names 1 2 = ["p_007_1_", "p_007_2_"] ∧ (stem.names 1 2).Nodup ∧
      (constructor 7).name 1 ≠ (func "007").name 1 := by
  intro inj method stem
  obtain ⟨hnames, hfunc, hapart⟩ := names_choose inj BinaryName.object method
  have hdigits : ∀ c ∈ "007".toList, c.isDigit = true := List.all_eq_true.mp (by decide)
  have hstem : stem = .func "007" :=
    (hfunc "007").mpr ⟨by decide, hdigits, "1_b", by decide, by decide⟩
  exact ⟨by decide, hdigits, hstem, by rw [hstem]; decide, (hnames 1 3 (by decide)).2.1,
    (hapart 7 "007" hdigits 1 1).1⟩

end MethodMetadata.NameStem
