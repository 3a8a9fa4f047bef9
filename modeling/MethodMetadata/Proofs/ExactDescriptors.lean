import MethodMetadata.Proofs.Descriptors
import MethodMetadata.Proofs.Traversal
import MethodMetadata.Signature

/-! Descriptors are read from exactly the texts that they are rendered as. A reader stops where the
rendered value ends, whatever follows, so that types need no separators between them. -/
namespace MethodMetadata

@[simp]
private theorem BaseType.ofLetter?_letter (type : BaseType) :
    ofLetter? type.letter = some type := by
  cases type <;> rfl

namespace Descriptor

variable {α : Type}

/-- A reader gives the value that is rendered at the front of a text, and leaves what follows. -/
def ReadsRendered (read : Reader α) (render : α → List Char) : Prop :=
  ∀ value rest, read (render value ++ rest) = .ok (value, rest)

private theorem readsRendered_base : ReadsRendered readBase renderBase := by
  intro type rest
  simp [renderBase, readBase]

private theorem readNameOnto_append {name : BinaryName} {read text : List Char}
    (h : read.reverse ++ text = name.text.toList) (rest : List Char) :
    readNameOnto read (text ++ ';' :: rest) = .ok (name, rest) := by
  induction text generalizing read with
  | nil =>
    have hname : BinaryName.ofString (String.ofList read.reverse) = .ok name := by
      rw [← List.append_nil read.reverse, h, String.ofList_toList]
      exact BinaryName.ofString_eq_ok_iff.mpr rfl
    simp [readNameOnto, hname]
  | cons c text ih =>
    have hmem : c ∈ name.text.toList := h ▸ List.mem_append_right _ List.mem_cons_self
    -- The semicolon that ends the name is the first one, since no name has one.
    have hc : c ≠ ';' := by
      rintro rfl
      exact Bool.noConfusion (name.not_separator hmem (by decide))
    rw [List.cons_append, readNameOnto, if_neg hc]
    apply ih
    rwa [List.reverse_cons, List.append_assoc]

private theorem readsRendered_class : ReadsRendered readClass renderClass := by
  intro name rest
  have htext : renderClass name ++ rest = 'L' :: (name.text.toList ++ ';' :: rest) := by
    simp [renderClass]
  rw [htext]
  exact readNameOnto_append rfl rest

private theorem renderRef_cons (type : RefType) :
    ∃ c tail, renderRef type = c :: tail ∧ (c = 'L' ∨ c = '[') := by
  cases type with
  | object name => exact ⟨_, _, rfl, .inl rfl⟩
  | objectArray extra name => exact ⟨_, _, rfl, .inr rfl⟩
  | primitiveArray extra type => exact ⟨_, _, rfl, .inr rfl⟩

/-- No type starts like the end of the parameters, or like the result of a void method. -/
theorem renderField_cons (type : FieldType) :
    ∃ c tail, renderField type = c :: tail ∧ c ≠ ')' ∧ c ≠ 'V' := by
  cases type with
  | base type => exact ⟨type.letter, [], rfl, by cases type <;> decide⟩
  | ref type =>
    obtain ⟨c, tail, htext, hc⟩ := renderRef_cons type
    exact ⟨c, tail, htext, by rcases hc with rfl | rfl <;> decide⟩

private theorem readElement_class (extra : Nat) (name : BinaryName) (rest : List Char) :
    readElement extra (renderClass name ++ rest) = .ok (.objectArray extra name, rest) := by
  have hread := readsRendered_class name rest
  rw [renderClass, List.cons_append] at hread ⊢
  rw [readElement, hread]

private theorem readElement_base (extra : Nat) (type : BaseType) (rest : List Char) :
    readElement extra (renderBase type ++ rest) = .ok (.primitiveArray extra type, rest) := by
  have hread := readsRendered_base type rest
  have hne : ∀ tail, renderBase type ++ rest ≠ 'L' :: tail := by
    cases type <;> simp [renderBase, BaseType.letter]
  rw [readElement.eq_2 _ _ hne, hread]

private theorem readArray_brackets (extra count : Nat) {text : List Char}
    (h : ∀ tail, text ≠ '[' :: tail) :
    readArray extra (List.replicate count '[' ++ text) = readElement (extra + count) text := by
  induction count generalizing extra with
  | zero => exact readArray.eq_2 extra text h
  | succ count ih =>
    rw [List.replicate_succ, List.cons_append, readArray, ih, Nat.succ_add_eq_add_succ]

private theorem readsRendered_ref : ReadsRendered readRef renderRef := by
  intro type rest
  cases type with
  | object name =>
    have hread := readsRendered_class name rest
    rw [renderRef]
    rw [renderClass, List.cons_append] at hread ⊢
    rw [readRef, hread]
  | objectArray extra name =>
    have hstart : ∀ tail, renderClass name ++ rest ≠ '[' :: tail := by simp [renderClass]
    rw [renderRef, List.replicate_succ, List.cons_append, List.cons_append, List.append_assoc,
      readRef, readArray_brackets 0 extra hstart, Nat.zero_add, readElement_class]
  | primitiveArray extra type =>
    have hstart : ∀ tail, renderBase type ++ rest ≠ '[' :: tail := by
      cases type <;> simp [renderBase, BaseType.letter]
    rw [renderRef, List.replicate_succ, List.cons_append, List.cons_append, List.append_assoc,
      readRef, readArray_brackets 0 extra hstart, Nat.zero_add, readElement_base]

private theorem readsRendered_field : ReadsRendered readField renderField := by
  intro type rest
  cases type with
  | base type => simp [renderField, renderBase, readField]
  | ref type =>
    have hread := readsRendered_ref type rest
    obtain ⟨c, tail, htext, hc⟩ := renderRef_cons type
    have hletter : BaseType.ofLetter? c = none := by rcases hc with rfl | rfl <;> rfl
    rw [htext, List.cons_append] at hread
    rw [renderField, htext, List.cons_append, readField, hletter]
    dsimp only
    rw [if_pos hc, hread]

private theorem readParametersOnto_append (read parameters : List FieldType) {most : Nat}
    (h : parameters.length ≤ most) (rest : List Char) :
    readParametersOnto read most (parameters.flatMap renderField ++ ')' :: rest) =
      .ok (read.reverse ++ parameters, rest) := by
  induction parameters generalizing read most with
  | nil => simp [readParametersOnto]
  | cons type parameters ih =>
    cases most with
    | zero => simp at h
    | succ most =>
      obtain ⟨c, tail, htext, hc, -⟩ := renderField_cons type
      have hstart : ∀ more,
          renderField type ++ (parameters.flatMap renderField ++ ')' :: rest) ≠ ')' :: more := by
        simp [htext, hc]
      rw [List.flatMap_cons, List.append_assoc, readParametersOnto.eq_3 _ _ _ hstart,
        readsRendered_field]
      dsimp only
      rw [ih (type :: read) (Nat.le_of_succ_le_succ h)]
      simp

private theorem readsRendered_result : ReadsRendered readResult renderResult := by
  intro result rest
  cases result with
  | none => rfl
  | some type =>
    obtain ⟨c, tail, htext, -, hc⟩ := renderField_cons type
    have hstart : ∀ more, renderField type ++ rest ≠ 'V' :: more := by simp [htext, hc]
    rw [renderResult, readResult.eq_2 _ hstart, readsRendered_field]

/-- A type takes a character at least, so that there is room for the parameters of a text. -/
theorem length_le_flatMap_renderField (parameters : List FieldType) :
    parameters.length ≤ (parameters.flatMap renderField).length := by
  induction parameters with
  | nil => exact Nat.le_refl 0
  | cons type parameters ih =>
    obtain ⟨c, tail, htext, -⟩ := renderField_cons type
    rw [List.flatMap_cons, List.length_append, htext, List.length_cons, List.length_cons]
    omega

private theorem readsRendered_method : ReadsRendered readMethod renderMethod := by
  intro d rest
  have htext : renderMethod d ++ rest =
      '(' :: (d.parameters.flatMap renderField ++ ')' :: (renderResult d.result ++ rest)) := by
    simp [renderMethod]
  have hroom : d.parameters.length ≤
      (d.parameters.flatMap renderField ++ ')' :: (renderResult d.result ++ rest)).length := by
    rw [List.length_append]
    exact Nat.le_add_right_of_le (length_le_flatMap_renderField d.parameters)
  rw [htext, readMethod, readParametersOnto_append [] d.parameters hroom]
  dsimp only
  rw [readsRendered_result]
  rfl

/-- A whole text is read with success exactly if it is rendered for the value. -/
theorem whole_eq_ok_iff {read : Reader α} {render : α → List Char}
    (htakes : TakesRendered read render) (hreads : ReadsRendered read render) {text : String}
    {value : α} : whole read text = .ok value ↔ String.ofList (render value) = text := by
  constructor
  · intro h
    rw [← htakes.whole h, String.ofList_toList]
  · rintro rfl
    have hread := hreads value []
    rw [List.append_nil] at hread
    rw [whole, String.toList_ofList, hread]

end Descriptor

private theorem RefType.parse_eq_ok_iff {text : String} {type : RefType} :
    parse text = .ok type ↔ type.render = text :=
  Descriptor.whole_eq_ok_iff Descriptor.takesRendered_ref Descriptor.readsRendered_ref

private theorem FieldType.parse_eq_ok_iff {text : String} {type : FieldType} :
    parse text = .ok type ↔ type.render = text :=
  Descriptor.whole_eq_ok_iff Descriptor.takesRendered_field Descriptor.readsRendered_field

/-- A text is read as a descriptor exactly if it is what the descriptor is rendered as. -/
theorem MethodDescriptor.ofText_eq_ok_iff_render {text : String} {d : MethodDescriptor} :
    ofText text = .ok d ↔ d.render = text :=
  mapError_eq_ok_iff.trans
    (Descriptor.whole_eq_ok_iff Descriptor.takesRendered_method Descriptor.readsRendered_method)

private theorem injective_of_parse {ε α : Type} {parse : String → Except ε α} {render : α → String}
    (h : ∀ text value, parse text = .ok value ↔ render value = text) :
    Function.Injective render := by
  intro value value' heq
  have hread := (h _ value).mpr heq
  rw [(h _ value').mpr rfl] at hread
  exact (Except.ok.inj hread).symm

/-- Descriptors of methods, fields and references are read from exactly the texts that they are
rendered as, for any number of parameters and dimensions, and no two of them are rendered alike. -/
theorem Descriptor.parse_iff_render :
    ((∀ text d, MethodDescriptor.ofText text = .ok d ↔ d.render = text) ∧
      Function.Injective MethodDescriptor.render) ∧
    ((∀ text type, FieldType.parse text = .ok type ↔ type.render = text) ∧
      Function.Injective FieldType.render) ∧
    ((∀ text type, RefType.parse text = .ok type ↔ type.render = text) ∧
      Function.Injective RefType.render) := by
  have hmethod (text : String) (d : MethodDescriptor) :
      MethodDescriptor.ofText text = .ok d ↔ d.render = text :=
    MethodDescriptor.ofText_eq_ok_iff_render
  have hfield (text : String) (type : FieldType) :
      FieldType.parse text = .ok type ↔ type.render = text := FieldType.parse_eq_ok_iff
  have href (text : String) (type : RefType) :
      RefType.parse text = .ok type ↔ type.render = text := RefType.parse_eq_ok_iff
  exact ⟨⟨hmethod, injective_of_parse hmethod⟩, ⟨hfield, injective_of_parse hfield⟩,
    href, injective_of_parse href⟩

end MethodMetadata
