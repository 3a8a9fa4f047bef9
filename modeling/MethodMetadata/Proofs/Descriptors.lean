import MethodMetadata.Descriptor
import MethodMetadata.Proofs.Names

/-! What a descriptor reader takes from the front of a text is what is rendered for the value that
it gives, so that a descriptor that is read is the one that is rendered. -/
namespace MethodMetadata

private theorem BaseType.letter_of_ofLetter? {c : Char} {type : BaseType}
    (h : ofLetter? c = some type) : type.letter = c := by
  unfold ofLetter? at h
  split at h <;> cases h <;> rfl

namespace Descriptor

variable {α : Type}

/-- A reader takes off a text what is rendered for the value. -/
def TakesRendered (read : Reader α) (render : α → List Char) : Prop :=
  ∀ ⦃text value rest⦄, read text = .ok (value, rest) → text = render value ++ rest

private theorem takesRendered_base : TakesRendered readBase renderBase := by
  intro text type rest h
  unfold readBase at h
  split at h
  next => cases h
  next c tail =>
    split at h
    next found hf =>
      cases h
      rw [renderBase, BaseType.letter_of_ofLetter? hf]
      rfl
    next => cases h

private theorem readNameOnto_eq_ok {read text rest : List Char} {name : BinaryName}
    (h : readNameOnto read text = .ok (name, rest)) :
    read.reverse ++ text = name.text.toList ++ ';' :: rest := by
  induction text generalizing read with
  | nil => cases h
  | cons c text ih =>
    rw [readNameOnto] at h
    split at h
    next hc =>
      split at h
      next found hf =>
        cases h
        rw [BinaryName.ofString_eq_ok_iff.mp hf, String.toList_ofList, hc]
      next => cases h
    next =>
      have hread := ih h
      rwa [List.reverse_cons, List.append_assoc] at hread

private theorem takesRendered_class : TakesRendered readClass renderClass := by
  intro text name rest h
  unfold readClass at h
  split at h
  next tail =>
    have hname := readNameOnto_eq_ok h
    rw [List.reverse_nil, List.nil_append] at hname
    rw [renderClass, hname]
    simp
  next => cases h

private theorem readElement_eq_ok {extra : Nat} {text rest : List Char} {type : RefType}
    (h : readElement extra text = .ok (type, rest)) :
    List.replicate (extra + 1) '[' ++ text = renderRef type ++ rest := by
  unfold readElement at h
  split at h
  next =>
    split at h
    next name tail hc =>
      cases h
      rw [takesRendered_class hc, renderRef, List.append_assoc]
    next => cases h
  next =>
    split at h
    next found tail hb =>
      cases h
      rw [takesRendered_base hb, renderRef, List.append_assoc]
    next => cases h

private theorem readArray_eq_ok {extra : Nat} {text rest : List Char} {type : RefType}
    (h : readArray extra text = .ok (type, rest)) :
    List.replicate (extra + 1) '[' ++ text = renderRef type ++ rest := by
  induction text generalizing extra with
  | nil => exact readElement_eq_ok h
  | cons c text ih =>
    rw [readArray.eq_def] at h
    split at h
    next tail he =>
      cases he
      have hrest := ih h
      rwa [List.replicate_succ', List.append_assoc] at hrest
    next => exact readElement_eq_ok h

theorem takesRendered_ref : TakesRendered readRef renderRef := by
  intro text type rest h
  unfold readRef at h
  split at h
  next => cases h
  next => exact readArray_eq_ok h
  next =>
    split at h
    next name tail hc =>
      cases h
      exact takesRendered_class hc
    next => cases h
  next => cases h

/-- A rendered type is taken off a text. -/
theorem takesRendered_field : TakesRendered readField renderField := by
  intro text type rest h
  unfold readField at h
  split at h
  next => cases h
  next c tail =>
    split at h
    next found hf =>
      cases h
      rw [renderField, renderBase, BaseType.letter_of_ofLetter? hf]
      rfl
    next =>
      split at h
      · split at h
        next found after hr =>
          cases h
          exact takesRendered_ref hr
        next => cases h
      · cases h

private theorem readParametersOnto_eq_ok {read parameters : List FieldType} {most : Nat}
    {text rest : List Char} (h : readParametersOnto read most text = .ok (parameters, rest)) :
    ∃ more, parameters = read.reverse ++ more ∧
      text = more.flatMap renderField ++ ')' :: rest := by
  fun_induction readParametersOnto read most text with
  | case1 =>
    cases h
    exact ⟨[], (List.append_nil _).symm, rfl⟩
  | case2 => cases h
  | case3 read most text _ type tail hf ih =>
    obtain ⟨more, rfl, ht⟩ := ih h
    refine ⟨type :: more, ?_, ?_⟩
    · rw [List.reverse_cons, List.append_assoc]
      rfl
    · rw [takesRendered_field hf, ht, List.flatMap_cons, List.append_assoc]
  | case4 => cases h

private theorem takesRendered_result : TakesRendered readResult renderResult := by
  intro text type rest h
  unfold readResult at h
  split at h
  next =>
    cases h
    rfl
  next =>
    split at h
    next found tail hf =>
      cases h
      exact takesRendered_field hf
    next => cases h

/-- A rendered descriptor of a method is taken off a text. -/
theorem takesRendered_method : TakesRendered readMethod renderMethod := by
  intro text d rest h
  unfold readMethod at h
  split at h
  next tail =>
    split at h
    next => cases h
    next parameters after hp =>
      split at h
      next => cases h
      next result last hr =>
        cases h
        obtain ⟨more, rfl, ht⟩ := readParametersOnto_eq_ok hp
        rw [ht, takesRendered_result hr, renderMethod]
        simp
  next => cases h

/-- A text that is read as a whole is what is rendered for the value. -/
theorem TakesRendered.whole {read : Reader α} {render : α → List Char}
    (h : TakesRendered read render) {text : String} {value : α}
    (hw : Descriptor.whole read text = .ok value) : text.toList = render value := by
  unfold Descriptor.whole at hw
  split at hw
  next => cases hw
  next found hr =>
    cases hw
    rw [h hr, List.append_nil]
  next => cases hw

end Descriptor

end MethodMetadata
