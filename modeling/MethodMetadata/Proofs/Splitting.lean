import MethodMetadata.Text.Split

/-! Texts cut at a separator. The pieces hold all characters but the separators, so that pieces
without separators are what their joined text is cut into. Cutting and joining comma lists are
inverse to each other but for one corner. -/
namespace MethodMetadata

variable {α : Type}

private theorem mem_intercalate {separator x : α} {pieces : List (List α)}
    (h : x ∈ [separator].intercalate pieces) : x = separator ∨ ∃ piece ∈ pieces, x ∈ piece := by
  induction pieces with
  | nil => cases h
  | cons piece pieces ih =>
    cases pieces with
    | nil =>
      rw [List.intercalate_singleton] at h
      exact .inr ⟨piece, List.mem_cons_self, h⟩
    | cons next pieces =>
      rw [List.intercalate_cons_cons, List.append_assoc] at h
      rcases List.mem_append.mp h with h | h
      · exact .inr ⟨piece, List.mem_cons_self, h⟩
      · rcases List.mem_append.mp h with h | h
        · exact .inl (List.mem_singleton.mp h)
        · rcases ih h with h | ⟨found, hf, hx⟩
          · exact .inl h
          · exact .inr ⟨found, List.mem_cons_of_mem _ hf, hx⟩

private theorem mem_intercalate_of_mem {separator x : α} {pieces : List (List α)} {piece : List α}
    (hp : piece ∈ pieces) (hx : x ∈ piece) : x ∈ [separator].intercalate pieces := by
  induction pieces with
  | nil => cases hp
  | cons first pieces ih =>
    cases pieces with
    | nil =>
      rw [List.intercalate_singleton]
      exact List.mem_singleton.mp hp ▸ hx
    | cons next pieces =>
      rw [List.intercalate_cons_cons, List.append_assoc]
      rcases List.mem_cons.mp hp with rfl | hp
      · exact List.mem_append_left _ hx
      · exact List.mem_append_right _ (List.mem_append_right _ (ih hp))

/-- Two texts with a separator are the same exactly if what stands in front of their first
separators is the same, and what stands behind. -/
theorem append_separator_inj {separator : α} {front front' rest rest' : List α}
    (h : separator ∉ front) (h' : separator ∉ front') :
    front ++ separator :: rest = front' ++ separator :: rest' ↔ front = front' ∧ rest = rest' := by
  refine ⟨fun he => ?_, fun he => by rw [he.1, he.2]⟩
  induction front generalizing front' with
  | nil =>
    cases front' with
    | nil => exact ⟨rfl, (List.cons.inj he).2⟩
    | cons x front' => exact absurd ((List.cons.inj he).1 ▸ List.mem_cons_self) h'
  | cons x front ih =>
    cases front' with
    | nil => exact absurd ((List.cons.inj he).1 ▸ List.mem_cons_self) h
    | cons x' front' =>
      obtain ⟨hx, he⟩ := List.cons.inj he
      obtain ⟨hf, hr⟩ := ih (mt (List.mem_cons_of_mem _) h) (mt (List.mem_cons_of_mem _) h') he
      exact ⟨by rw [hx, hf], hr⟩

variable [DecidableEq α]

/-- The pieces are those of the library's splitting. -/
theorem splitOn_eq (separator : α) (items : List α) :
    splitOn separator items = items.splitOn separator := by
  induction items with
  | nil => rfl
  | cons item items ih =>
    have hne : splitOn separator items ≠ [] := ih ▸ List.splitOn_ne_nil _ _
    obtain ⟨piece, more, hs⟩ := List.exists_cons_of_ne_nil hne
    rw [List.splitOn_cons_eq_if_modifyHead, ← ih, hs]
    unfold splitOn at hs ⊢
    rw [List.foldr_cons, hs]
    by_cases h : item = separator
    · rw [if_pos h, if_pos (beq_iff_eq.mpr h)]
    · rw [if_neg h, if_neg (mt beq_iff_eq.mp h)]
      rfl

/-- No piece holds the separator. -/
theorem not_mem_of_mem_splitOn {separator : α} {items piece : List α}
    (h : piece ∈ splitOn separator items) : separator ∉ piece := by
  rw [splitOn_eq] at h
  induction items generalizing piece with
  | nil =>
    rw [List.splitOn_nil, List.mem_singleton] at h
    exact h ▸ List.not_mem_nil
  | cons item items ih =>
    rw [List.splitOn_cons_eq_if_modifyHead] at h
    by_cases hi : item = separator
    · rw [if_pos (beq_iff_eq.mpr hi)] at h
      rcases List.mem_cons.mp h with rfl | h
      · exact List.not_mem_nil
      · exact ih h
    · rw [if_neg (mt beq_iff_eq.mp hi)] at h
      cases hs : items.splitOn separator with
      | nil => exact absurd hs (List.splitOn_ne_nil _ _)
      | cons first more =>
        rw [hs] at h ih
        rcases List.mem_cons.mp h with rfl | h
        · exact fun hm => (List.mem_cons.mp hm).elim (fun e => hi e.symm) (ih List.mem_cons_self)
        · exact ih (List.mem_cons_of_mem _ h)

private theorem mem_of_mem_splitOn {separator x : α} {items piece : List α}
    (h : piece ∈ splitOn separator items) (hx : x ∈ piece) : x ∈ items := by
  have hm : x ∈ [separator].intercalate (items.splitOn separator) :=
    mem_intercalate_of_mem (splitOn_eq separator items ▸ h) hx
  rwa [List.intercalate_splitOn] at hm

/-- Everything but the separators gets into some piece. -/
theorem exists_mem_splitOn {separator x : α} {items : List α} (hx : x ∈ items)
    (hne : x ≠ separator) : ∃ piece ∈ splitOn separator items, x ∈ piece := by
  have hjoined : x ∈ [separator].intercalate (items.splitOn separator) := by
    rwa [List.intercalate_splitOn]
  rw [splitOn_eq]
  exact (mem_intercalate hjoined).resolve_left hne

namespace CommaList

private theorem toList_join (items : List String) :
    (join items).toList = [','].intercalate (items.map String.toList) :=
  String.toList_intercalate

private theorem split_of_ne {text : String} (h : text ≠ "") :
    split text = (text.toList.splitOn ',').map String.ofList := by
  rw [split, if_neg (by simpa using h), splitOn_eq]

private theorem toList_mem_splitOn {text item : String} (h : item ∈ split text) :
    item.toList ∈ splitOn ',' text.toList := by
  unfold split at h
  split at h
  · cases h
  · obtain ⟨piece, hp, rfl⟩ := List.mem_map.mp h
    rwa [String.toList_ofList]

theorem mem_of_mem_split {text item : String} (h : item ∈ split text) {c : Char}
    (hc : c ∈ item.toList) : c ∈ text.toList :=
  mem_of_mem_splitOn (toList_mem_splitOn h) hc

private theorem comma_not_mem_of_mem_split {text item : String} (h : item ∈ split text) :
    ',' ∉ item.toList :=
  not_mem_of_mem_splitOn (toList_mem_splitOn h)

theorem mem_join {items : List String} {c : Char} (h : c ∈ (join items).toList) :
    c = ',' ∨ ∃ item ∈ items, c ∈ item.toList := by
  rw [toList_join] at h
  rcases mem_intercalate h with h | ⟨piece, hp, hc⟩
  · exact .inl h
  · obtain ⟨item, hi, rfl⟩ := List.mem_map.mp hp
    exact .inr ⟨item, hi, hc⟩

/-- Joining the items of a comma list gives the list. -/
theorem join_of_split (text : String) : join (split text) = text := by
  by_cases h : text = ""
  · rw [h]
    rfl
  · apply String.toList_inj.mp
    rw [toList_join, split_of_ne h, List.map_map]
    have hid : String.toList ∘ String.ofList = id := funext fun _ => String.toList_ofList
    rw [hid, List.map_id, List.intercalate_splitOn]

/-- Items without commas are what their list is cut into. The text of the one empty item stands
for no items. -/
theorem split_of_join {items : List String} (h : ∀ item ∈ items, ',' ∉ item.toList)
    (hne : items ≠ [""]) : split (join items) = items := by
  by_cases hnil : items = []
  · rw [hnil]
    rfl
  · have hpieces : (join items).toList.splitOn ',' = items.map String.toList := by
      rw [toList_join]
      refine List.splitOn_intercalate ',' (fun piece hp => ?_) (mt List.map_eq_nil_iff.mp hnil)
      obtain ⟨item, hi, rfl⟩ := List.mem_map.mp hp
      exact h item hi
    have hid : String.ofList ∘ String.toList = id := funext fun _ => String.ofList_toList
    have htext : join items ≠ "" := by
      intro he
      rw [he] at hpieces
      apply hne
      have hmap := congrArg (List.map String.ofList) hpieces
      rw [List.map_map, hid, List.map_id] at hmap
      exact hmap.symm
    rw [split_of_ne htext, hpieces, List.map_map, hid, List.map_id]

/-- A text is joined back from its items. Items come back from their list exactly if none of them
has a comma, empty ones included, and they are not the one empty item, whose text stands for no
items. -/
theorem split_join_inverse :
    (∀ text, join (split text) = text) ∧
      ∀ items, split (join items) = items ↔
        (∀ item ∈ items, ',' ∉ item.toList) ∧ items ≠ [""] := by
  refine ⟨join_of_split, fun items => ⟨fun h => ⟨fun item hi => ?_, ?_⟩, fun h => ?_⟩⟩
  · -- What comes back out of a text was cut at every comma.
    rw [← h] at hi
    exact comma_not_mem_of_mem_split hi
  · rintro rfl
    have hnone : split (join [""]) = [] := rfl
    rw [hnone] at h
    cases h
  · exact split_of_join h.1 h.2

example : split "a,,b" = ["a", "", "b"] ∧ split "," = ["", ""] := by decide

end CommaList

end MethodMetadata
