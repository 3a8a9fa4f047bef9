import MethodMetadata.Proofs.Descriptors
import MethodMetadata.Proofs.Traversal
import MethodMetadata.Signature

/-! Keys of methods as texts. Nothing stands between the name of a method and its descriptor, so
that two methods have one key exactly if the name of the one goes on with what the descriptor of the
other starts with, up to a parenthesis in the name of a class. -/
namespace MethodMetadata

def FieldType.className? : FieldType → Option BinaryName
  | .base _ => none
  | .ref (.object name) => some name
  | .ref (.objectArray _ name) => some name
  | .ref (.primitiveArray _ _) => none

def MethodDescriptor.classNames (d : MethodDescriptor) : List BinaryName :=
  (d.parameters ++ d.result.toList).filterMap FieldType.className?

namespace Descriptor

private theorem paren_mem_renderClass {name : BinaryName} (h : '(' ∈ renderClass name) :
    '(' ∈ name.text.toList := by
  rcases List.mem_cons.mp h with h | h
  · cases h
  · rcases List.mem_append.mp h with h | h
    · exact h
    · cases List.mem_singleton.mp h

private theorem paren_not_mem_renderBase (type : BaseType) : '(' ∉ renderBase type := by
  cases type <;> decide

private theorem paren_mem_brackets {count : Nat} {text : List Char}
    (h : '(' ∈ List.replicate count '[' ++ text) : '(' ∈ text := by
  rcases List.mem_append.mp h with h | h
  · cases (List.mem_replicate.mp h).2
  · exact h

private theorem paren_mem_renderField {type : FieldType} (h : '(' ∈ renderField type) :
    ∃ name ∈ type.className?, '(' ∈ name.text.toList := by
  cases type with
  | base type => exact absurd h (paren_not_mem_renderBase type)
  | ref type =>
    cases type with
    | object name => exact ⟨name, rfl, paren_mem_renderClass h⟩
    | objectArray extra name => exact ⟨name, rfl, paren_mem_renderClass (paren_mem_brackets h)⟩
    | primitiveArray extra type =>
      exact absurd (paren_mem_brackets h) (paren_not_mem_renderBase type)

private theorem renderMethod_cons (d : MethodDescriptor) : ∃ tail, renderMethod d = '(' :: tail ∧
    ('(' ∈ tail → ∃ name ∈ d.classNames, '(' ∈ name.text.toList) := by
  refine ⟨_, rfl, fun h => ?_⟩
  have hfield : ∃ type ∈ d.parameters ++ d.result.toList, '(' ∈ renderField type := by
    rcases List.mem_append.mp h with h | h
    · obtain ⟨type, ht, hp⟩ := List.mem_flatMap.mp h
      exact ⟨type, List.mem_append_left _ ht, hp⟩
    · rcases List.mem_cons.mp h with h | h
      · cases h
      · cases hr : d.result with
        | none =>
          rw [hr] at h
          cases List.mem_singleton.mp h
        | some type =>
          rw [hr] at h
          exact ⟨type, List.mem_append_right _ (List.mem_singleton_self type), h⟩
  obtain ⟨type, ht, hp⟩ := hfield
  obtain ⟨name, hn, hp⟩ := paren_mem_renderField hp
  exact ⟨name, List.mem_filterMap.mpr ⟨type, ht, hn⟩, hp⟩

end Descriptor

namespace MethodDescriptor

theorem ofText_eq_ok_iff {text : String} {d : MethodDescriptor} :
    ofText text = .ok d ↔ parse text = .ok d :=
  mapError_eq_ok_iff

private theorem toList_of_ofText {text : String} {d : MethodDescriptor} (h : ofText text = .ok d) :
    text.toList = Descriptor.renderMethod d :=
  Descriptor.takesRendered_method.whole (ofText_eq_ok_iff.mp h)

end MethodDescriptor

namespace SignatureKey

/-- The name of another method of the class goes on with the front of a descriptor, and what is left
of it is the other one's. That happens only at a parenthesis in the name of a class. -/
structure Shadows (key : SignatureKey) (d : MethodDescriptor) (other : SignatureKey) : Prop where
  owner : key.owner = other.owner
  front : ∃ front, other.name.text.toList = key.name.text.toList ++ '(' :: front ∧
    key.descriptor.toList = '(' :: front ++ other.descriptor.toList
  named : ∃ name ∈ d.classNames, '(' ∈ name.text.toList

variable {key other : SignatureKey} {d d' : MethodDescriptor}

private theorem toList_text (key : SignatureKey) : key.text.toList =
    key.owner.text.toList ++ '.' :: (key.name.text.toList ++ key.descriptor.toList) := by
  simp [text]

private theorem dot_not_mem (name : BinaryName) : '.' ∉ name.text.toList := fun h =>
  Bool.noConfusion (name.not_separator h (by decide))

/-- What stands in front of the first dot of a text. -/
def ownerText (text : String) : String :=
  String.ofList (text.toList.takeWhile (· ≠ '.'))

/-- The owner of a key is told by its text. -/
theorem ownerText_text (key : SignatureKey) : ownerText key.text = key.owner.text := by
  have hall : ∀ c ∈ key.owner.text.toList, decide (c ≠ '.') = true := fun c hc =>
    decide_eq_true fun h => dot_not_mem key.owner (h ▸ hc)
  rw [ownerText, toList_text, List.takeWhile_append_of_pos hall,
    List.takeWhile_cons_of_neg (by simp), List.append_nil, String.ofList_toList]

private theorem text_eq_iff_append : key.text = other.text ↔ key.owner = other.owner ∧
    key.name.text.toList ++ key.descriptor.toList =
      other.name.text.toList ++ other.descriptor.toList := by
  have howner : key.owner.text.toList = other.owner.text.toList ↔ key.owner = other.owner := by
    rw [String.toList_inj, BinaryName.mk.injEq]
  rw [← String.toList_inj, toList_text, toList_text, append_separator_inj (dot_not_mem _)
    (dot_not_mem _), howner]

private theorem Shadows.text_eq (h : key.Shadows d other) : key.text = other.text := by
  obtain ⟨front, hname, hdescriptor⟩ := h.front
  refine text_eq_iff_append.mpr ⟨h.owner, ?_⟩
  rw [hname, hdescriptor, List.append_assoc]

private theorem eq_or_shadows_of_append (hd : MethodDescriptor.ofText key.descriptor = .ok d)
    (hd' : MethodDescriptor.ofText other.descriptor = .ok d') (howner : key.owner = other.owner)
    {middle : List Char} (hname : other.name.text.toList = key.name.text.toList ++ middle)
    (hdescriptor : key.descriptor.toList = middle ++ other.descriptor.toList) :
    key = other ∨ key.Shadows d other := by
  cases middle with
  | nil =>
    left
    rw [List.append_nil, String.toList_inj] at hname
    rw [List.nil_append, String.toList_inj] at hdescriptor
    obtain ⟨owner, ⟨name, hvalid⟩, descriptor⟩ := key
    obtain ⟨owner', ⟨name', hvalid'⟩, descriptor'⟩ := other
    cases howner
    cases hname
    cases hdescriptor
    rfl
  | cons c front =>
    -- The descriptor that is left opens a parenthesis, which is not the first one of the other.
    obtain ⟨tail, htail, hparen⟩ := Descriptor.renderMethod_cons d
    obtain ⟨tail', htail', -⟩ := Descriptor.renderMethod_cons d'
    have hleft : other.descriptor.toList = '(' :: tail' :=
      (MethodDescriptor.toList_of_ofText hd').trans htail'
    have hwhole : '(' :: tail = c :: (front ++ '(' :: tail') := by
      rw [← htail, ← MethodDescriptor.toList_of_ofText hd, hdescriptor, hleft]
      rfl
    obtain ⟨rfl, rfl⟩ := List.cons.inj hwhole
    have hinside := hparen (List.mem_append_right _ List.mem_cons_self)
    exact .inr ⟨howner, ⟨front, hname, hdescriptor⟩, hinside⟩

/-- Methods with one key are the same, or one of them shadows the other. In particular they are the
same if their names have no parentheses, or no class in their descriptors has one in its name. -/
theorem text_eq_iff (hd : MethodDescriptor.ofText key.descriptor = .ok d)
    (hd' : MethodDescriptor.ofText other.descriptor = .ok d') :
    (key.text = other.text ↔ key = other ∨ key.Shadows d other ∨ other.Shadows d' key) ∧
      ('(' ∉ key.name.text.toList ∧ '(' ∉ other.name.text.toList ∨
          (∀ name ∈ d.classNames ++ d'.classNames, '(' ∉ name.text.toList) →
        (key.text = other.text ↔ key = other)) := by
  have hiff : key.text = other.text ↔ key = other ∨ key.Shadows d other ∨ other.Shadows d' key := by
    constructor
    · intro h
      obtain ⟨howner, happend⟩ := text_eq_iff_append.mp h
      rcases List.append_eq_append_iff.mp happend with ⟨middle, hn, hm⟩ | ⟨middle, hn, hm⟩
      · exact (eq_or_shadows_of_append hd hd' howner hn hm).imp_right .inl
      · exact (eq_or_shadows_of_append hd' hd howner.symm hn hm).imp Eq.symm .inr
    · rintro (rfl | h | h)
      · rfl
      · exact h.text_eq
      · exact h.text_eq.symm
  refine ⟨hiff, fun hplain => ⟨fun h => ?_, fun h => h ▸ rfl⟩⟩
  have hclear {key other : SignatureKey} {d : MethodDescriptor} (hs : key.Shadows d other) :
      '(' ∈ other.name.text.toList ∧ ∃ name ∈ d.classNames, '(' ∈ name.text.toList := by
    obtain ⟨front, hname, -⟩ := hs.front
    exact ⟨by rw [hname]; simp, hs.named⟩
  rcases hiff.mp h with h | h | h
  · exact h
  · obtain ⟨hname, name, hn, hclass⟩ := hclear h
    rcases hplain with hplain | hplain
    · exact absurd hname hplain.2
    · exact absurd hclass (hplain name (List.mem_append_left _ hn))
  · obtain ⟨hname, name, hn, hclass⟩ := hclear h
    rcases hplain with hplain | hplain
    · exact absurd hname hplain.1
    · exact absurd hclass (hplain name (List.mem_append_right _ hn))

/-- A method whose result is of a class with parentheses in its name. -/
def shadowingKey : SignatureKey :=
  ⟨⟨"a/A", by decide⟩, ⟨"f", by decide⟩, "()La()Lb;"⟩

/-- A method whose name goes on with the front of that descriptor. -/
def shadowedKey : SignatureKey :=
  ⟨⟨"a/A", by decide⟩, ⟨"f()La", by decide⟩, "()Lb;"⟩

theorem text_eq_iff_shadowed : ∃ d d',
    MethodDescriptor.ofText shadowingKey.descriptor = .ok d ∧
      MethodDescriptor.ofText shadowedKey.descriptor = .ok d' ∧
      (shadowingKey.Shadows d shadowedKey ∨ shadowedKey.Shadows d' shadowingKey) := by
  have hread : (MethodDescriptor.ofText shadowingKey.descriptor).toOption.isSome ∧
      (MethodDescriptor.ofText shadowedKey.descriptor).toOption.isSome ∧
      shadowingKey.text = shadowedKey.text ∧ shadowingKey ≠ shadowedKey := by decide +kernel
  obtain ⟨hsome, hsome', htext, hne⟩ := hread
  obtain ⟨d, hd⟩ := isSome_toOption_iff.mp hsome
  obtain ⟨d', hd'⟩ := isSome_toOption_iff.mp hsome'
  exact ⟨d, d', hd, hd', ((text_eq_iff hd hd').1.mp htext).resolve_left hne⟩

/-- Two methods of a class may have one key. -/
theorem text_shadowed :
    (MethodDescriptor.ofText shadowingKey.descriptor).toOption.isSome ∧
      (MethodDescriptor.ofText shadowedKey.descriptor).toOption.isSome ∧
      shadowingKey.text = shadowedKey.text ∧ shadowingKey.text = "a/A.f()La()Lb;" ∧
      shadowingKey.name ≠ shadowedKey.name ∧
      shadowingKey.descriptor ≠ shadowedKey.descriptor := by
  decide +kernel

end SignatureKey

end MethodMetadata
