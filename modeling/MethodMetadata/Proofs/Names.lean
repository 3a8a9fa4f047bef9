import MethodMetadata.Name
import MethodMetadata.Proofs.Splitting

/-! Names are the texts that are checked to be names. No separator stands in one, except for the
slashes between the pieces of a binary name. -/
namespace MethodMetadata

private theorem unqualifiedFault?_eq_none_iff {text : List Char} :
    unqualifiedFault? text = none ↔ (∀ c ∈ text, isNameSeparator c = false) ∧ text ≠ [] := by
  unfold unqualifiedFault?
  by_cases hany : text.any isNameSeparator = true
  · rw [if_pos hany]
    refine ⟨nofun, fun h => ?_⟩
    obtain ⟨c, hc, hs⟩ := List.any_eq_true.mp hany
    exact Bool.noConfusion ((h.1 c hc).symm.trans hs)
  · have hall : ∀ c ∈ text, isNameSeparator c = false := by simpa using hany
    rw [if_neg hany]
    cases text with
    | nil => exact ⟨nofun, fun h => absurd rfl h.2⟩
    | cons c text => exact ⟨fun _ => ⟨hall, List.cons_ne_nil _ _⟩, fun _ => rfl⟩

private theorem binaryFault?_eq_none_iff {text : List Char} :
    binaryFault? text = none ↔
      text ≠ [] ∧ ∀ piece ∈ splitOn '/' text, unqualifiedFault? piece = none := by
  unfold binaryFault?
  by_cases hempty : text.isEmpty = true
  · rw [if_pos hempty]
    exact ⟨nofun, fun h => absurd (List.isEmpty_iff.mp hempty) h.1⟩
  · rw [if_neg hempty, List.findSome?_eq_none_iff]
    exact ⟨fun h => ⟨mt List.isEmpty_iff.mpr hempty, h⟩, And.right⟩

/-- A binary name has no separators but slashes. -/
theorem BinaryName.not_separator (name : BinaryName) {c : Char} (h : c ∈ name.text.toList)
    (hslash : c ≠ '/') : isNameSeparator c = false := by
  obtain ⟨piece, hp, hc⟩ := exists_mem_splitOn h hslash
  have hpiece := (binaryFault?_eq_none_iff.mp name.valid).2 piece hp
  exact (unqualifiedFault?_eq_none_iff.mp hpiece).1 c hc

/-- A text is accepted as the name with that text. -/
theorem UnqualifiedName.ofString_eq_ok_iff {text : String} {name : UnqualifiedName} :
    UnqualifiedName.ofString text = .ok name ↔ name.text = text := by
  unfold UnqualifiedName.ofString
  split
  next h =>
    rw [Except.ok.injEq]
    exact ⟨fun he => he ▸ rfl, fun he => by cases name; cases he; rfl⟩
  next fault h =>
    refine ⟨nofun, fun he => ?_⟩
    rw [← he, name.valid] at h
    cases h

/-- A text is accepted as the binary name with that text. -/
theorem BinaryName.ofString_eq_ok_iff {text : String} {name : BinaryName} :
    BinaryName.ofString text = .ok name ↔ name.text = text := by
  unfold BinaryName.ofString
  split
  next h =>
    rw [Except.ok.injEq]
    exact ⟨fun he => he ▸ rfl, fun he => by cases name; cases he; rfl⟩
  next fault h =>
    refine ⟨nofun, fun he => ?_⟩
    rw [← he, name.valid] at h
    cases h

/-- A text is refused with the fault of its first faulty piece. -/
theorem BinaryName.ofString_eq_error_iff {text : String} {fault : NameError} :
    BinaryName.ofString text = .error fault ↔ binaryFault? text.toList = some fault := by
  unfold BinaryName.ofString
  split
  next h => simp [h]
  next fault' h => simp [h]

theorem BinaryName.exists_text_eq_iff {text : String} :
    (∃ name : BinaryName, name.text = text) ↔ binaryFault? text.toList = none := by
  constructor
  · rintro ⟨name, rfl⟩
    exact name.valid
  · intro h
    exact ⟨⟨text, h⟩, rfl⟩

end MethodMetadata
