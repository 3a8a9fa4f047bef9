import MethodMetadata.ClassFile.Constant
import MethodMetadata.Proofs.OffsetVector

/-! Offset vectors as they are made, by one push after the other. The search by halves tells of every
offset what looking at the elements one by one would. -/
namespace MethodMetadata.OffsetVector

variable {α : Type} [Wide α]

/-- A vector of elements that are pushed in their order. -/
def ofPushes (start : Nat) (items : List α) : OffsetVector α :=
  items.foldl push (empty start)

/-- Where the element at a position lies: behind the widths of all elements before it. -/
def offsetOf (start : Nat) (items : List α) (position : Nat) : Nat :=
  start + ((items.take position).map Wide.width).sum

/-- The number of elements that start below an offset. -/
def countBelow (start : Nat) (items : List α) (offset : Nat) : Nat :=
  (List.range items.length).countP fun i => offsetOf start items i < offset

private theorem offsetOf_cons_succ (start : Nat) (a : α) (items : List α) (i : Nat) :
    offsetOf start (a :: items) (i + 1) = offsetOf (start + Wide.width a) items i := by
  simp [offsetOf, Nat.add_assoc]

private theorem offsetOf_succ (start : Nat) {items : List α} {i : Nat} {a : α}
    (h : items[i]? = some a) :
    offsetOf start items (i + 1) = offsetOf start items i + Wide.width a := by
  simp [offsetOf, List.take_add_one, h, Nat.add_assoc]

private theorem start_foldl_push (v : OffsetVector α) (items : List α) :
    (items.foldl push v).start = v.start := by
  induction items generalizing v with
  | nil => rfl
  | cons a items ih => exact ih (v.push a)

private theorem values_foldl_push (v : OffsetVector α) (items : List α) :
    (items.foldl push v).entries.toList.map Prod.snd = v.entries.toList.map Prod.snd ++ items := by
  induction items generalizing v with
  | nil => exact (List.append_nil _).symm
  | cons a items ih =>
    rw [List.foldl_cons, ih]
    simp [push]

private theorem start_ofPushes (start : Nat) (items : List α) :
    (ofPushes start items).start = start :=
  start_foldl_push (empty start) items

private theorem values_ofPushes (start : Nat) (items : List α) :
    (ofPushes start items).entries.toList.map Prod.snd = items :=
  values_foldl_push (empty start) items

private theorem getElem?_of_laidOut {start next : Nat} {entries : List (Nat × α)}
    (h : LaidOut start entries next) (i : Nat) :
    entries[i]? = (entries.map Prod.snd)[i]?.map fun a =>
      (offsetOf start (entries.map Prod.snd) i, a) := by
  induction entries generalizing start i with
  | nil => rfl
  | cons e entries ih =>
    cases i with
    | zero => simp [offsetOf, ← h.1]
    | succ i =>
      rw [List.map_cons, List.getElem?_cons_succ, List.getElem?_cons_succ, offsetOf_cons_succ]
      exact ih h.2 i

/-- At every position stands the element that was pushed there, with its offset. -/
theorem getElem?_ofPushes (start : Nat) (items : List α) (i : Nat) :
    (ofPushes start items).entries[i]? = items[i]?.map fun a => (offsetOf start items i, a) := by
  have h := getElem?_of_laidOut (ofPushes start items).laidOut i
  rwa [values_ofPushes, start_ofPushes, Array.getElem?_toList] at h

private theorem size_ofPushes (start : Nat) (items : List α) :
    (ofPushes start items).size = items.length := by
  have h := congrArg List.length (values_ofPushes start items)
  rwa [List.length_map, Array.length_toList] at h

private theorem next_ofPushes (start : Nat) (items : List α) :
    (ofPushes start items).next = start + (items.map Wide.width).sum := by
  have h := (ofPushes start items).laidOut.next_eq_sum
  have hmap : (ofPushes start items).entries.toList.map (fun e => Wide.width e.2) =
      items.map Wide.width := by
    rw [← Function.comp_def Wide.width Prod.snd, ← List.map_map, values_ofPushes]
  rwa [start_ofPushes, hmap] at h

private theorem spaced_ofPushes (start : Nat) {items : List α} (h : ∀ a ∈ items, 1 ≤ Wide.width a) :
    (ofPushes start items).Spaced := by
  intro e he
  refine h e.2 ?_
  rw [← values_ofPushes start items]
  exact List.mem_map_of_mem he

private theorem countP_range_eq {p : Nat → Bool} {n k : Nat} (hk : k ≤ n)
    (h : ∀ i < n, p i = true ↔ i < k) : (List.range n).countP p = k := by
  induction n generalizing k with
  | zero => exact (Nat.le_zero.mp hk).symm
  | succ n ih =>
    rw [List.range_succ, List.countP_append, List.countP_singleton]
    have hn := h n (Nat.lt_succ_self n)
    by_cases hlast : k = n + 1
    · have hall : (List.range n).countP p = n :=
        ih (Nat.le_refl n) fun i hi => by rw [h i (by omega)]; omega
      rw [hall, if_pos (hn.mpr (by omega)), hlast]
    · have hless : (List.range n).countP p = k := ih (by omega) fun i hi => h i (by omega)
      rw [hless, if_neg fun hp => hlast (by have := hn.mp hp; omega), Nat.add_zero]

private theorem Spaced.lookup_of_missing {v : OffsetVector α} (hv : v.Spaced) {offset : Nat}
    (hmissing : ∀ i < v.size, v.offsetAt i ≠ offset) :
    ∃ k ≤ v.size, (∀ i < v.size, v.offsetAt i < offset ↔ i < k) ∧
      v.lookup offset = if k = v.size then .beyond else .inside k := by
  unfold lookup
  rcases Nat.eq_zero_or_pos v.size with hzero | hpos
  · have hnone (i : Nat) : v.entries[i]? = none :=
      Array.getElem?_eq_none (Nat.le_trans (Nat.le_of_eq hzero) (Nat.zero_le i))
    exact ⟨0, Nat.zero_le _, fun i hi => by omega, by simp [hnone, hzero]⟩
  · have hall : v.Within offset 0 v.size := ⟨hpos, by omega, .inl rfl, by omega⟩
    have hw := hv.within_narrow hall (Nat.le_succ _)
    generalize v.narrow offset v.size 0 v.size = r at hw
    have hr : r < v.size := hw.bounded
    obtain ⟨e, he, ho⟩ := exists_entry hr
    have hne : e.1 ≠ offset := ho ▸ hmissing r hr
    simp only [he, if_neg hne]
    by_cases hlt : offset < e.1
    · obtain rfl : r = 0 := hw.below.resolve_right (by omega)
      refine ⟨0, Nat.zero_le _, fun i hi => ?_, ?_⟩
      · rcases Nat.eq_zero_or_pos i with rfl | hi'
        · omega
        · have := hw.above i hi' hi
          omega
      · rw [if_pos hlt, if_neg (by omega)]
    · refine ⟨r + 1, hr, fun i hi => ?_, by rw [if_neg hlt]⟩
      rcases Nat.lt_trichotomy i r with hi' | rfl | hi'
      · obtain ⟨d, hd, hdo⟩ := exists_entry hi
        have := hv.offset_lt hd he hi'
        omega
      · omega
      · have := hw.above i hi' hi
        omega

private theorem lookup_ofPushes_eq_found_iff (start : Nat) {items : List α}
    (hw : ∀ a ∈ items, 1 ≤ Wide.width a) {offset i : Nat} {a : α} :
    (ofPushes start items).lookup offset = .found i a ↔
      items[i]? = some a ∧ offsetOf start items i = offset := by
  rw [(spaced_ofPushes start hw).lookup_eq_found_iff, getElem?_ofPushes, Option.map_eq_some_iff]
  constructor
  · rintro ⟨b, hb, he⟩
    cases he
    exact ⟨hb, rfl⟩
  · rintro ⟨ha, rfl⟩
    exact ⟨a, ha, rfl⟩

private theorem lookup_ofPushes_of_missing (start : Nat) {items : List α}
    (hw : ∀ a ∈ items, 1 ≤ Wide.width a) {offset : Nat}
    (hmissing : ¬∃ i a, items[i]? = some a ∧ offsetOf start items i = offset) :
    (ofPushes start items).lookup offset =
      if countBelow start items offset = items.length then .beyond
      else .inside (countBelow start items offset) := by
  have hsize := size_ofPushes start items
  have hoffset {i : Nat} (hi : i < items.length) :
      (ofPushes start items).offsetAt i = offsetOf start items i := by
    rw [offsetAt, getElem?_ofPushes, List.getElem?_eq_getElem hi]
    rfl
  have hnone : ∀ i < (ofPushes start items).size, (ofPushes start items).offsetAt i ≠ offset := by
    intro i hi ho
    rw [hsize] at hi
    exact hmissing ⟨i, items[i], List.getElem?_eq_getElem hi, hoffset hi ▸ ho⟩
  obtain ⟨k, hk, hbelow, hlookup⟩ := (spaced_ofPushes start hw).lookup_of_missing hnone
  rw [hsize] at hk hbelow hlookup
  have hcount : countBelow start items offset = k := by
    refine countP_range_eq hk fun i hi => ?_
    rw [decide_eq_true_iff, ← hoffset hi]
    exact hbelow i hi
  rw [hlookup, hcount]

/-- Elements of some width that are pushed have increasing offsets, each behind the width of the
element before it, and the next one will lie behind all of them. Looking up an offset finds an
element exactly if it starts there; otherwise it tells how many elements start below the offset,
unless all of them do. Start, widths and offsets may be any numbers; those of a constant pool, the
only user of these vectors, stay below 2 ^ 16. -/
theorem lookup_ofPushes (start : Nat) {items : List α} (hw : ∀ a ∈ items, 1 ≤ Wide.width a) :
    let v := ofPushes start items
    v.entries.toList.map Prod.snd = items ∧
      (v.entries.toList.map Prod.fst).Pairwise (· < ·) ∧
      (∀ e ∈ v.entries[0]?, e.1 = start) ∧
      (∀ i, ∀ d ∈ v.entries[i]?, ∀ e ∈ v.entries[i + 1]?, e.1 = d.1 + Wide.width d.2) ∧
      v.next = start + (items.map Wide.width).sum ∧
      ∀ offset,
        (∀ i a, v.lookup offset = .found i a ↔
          items[i]? = some a ∧ offsetOf start items i = offset) ∧
        ((¬∃ i a, items[i]? = some a ∧ offsetOf start items i = offset) →
          v.lookup offset =
            if countBelow start items offset = items.length then .beyond
            else .inside (countBelow start items offset)) := by
  intro v
  have hentry (i : Nat) : v.entries[i]? = items[i]?.map fun a => (offsetOf start items i, a) :=
    getElem?_ofPushes start items i
  refine ⟨values_ofPushes start items, ?_, fun e he => ?_, fun i d hd e he => ?_,
    next_ofPushes start items, fun _ => ⟨fun _ _ => lookup_ofPushes_eq_found_iff start hw,
      lookup_ofPushes_of_missing start hw⟩⟩
  · exact List.pairwise_map.mpr (v.laidOut.pairwise_lt (spaced_ofPushes start hw))
  · obtain ⟨a, -, rfl⟩ := Option.map_eq_some_iff.mp ((hentry 0).symm.trans he)
    rfl
  · obtain ⟨a, ha, rfl⟩ := Option.map_eq_some_iff.mp ((hentry i).symm.trans hd)
    obtain ⟨b, -, rfl⟩ := Option.map_eq_some_iff.mp ((hentry (i + 1)).symm.trans he)
    exact offsetOf_succ start ha

/-- Constants from index one on, of which two take up two indices. The last one is such. -/
theorem lookup_ofPushes_constants :
    let items : List Constant := [.integer 7, .long 8, .string 1, .double 9]
    let v := ofPushes 1 items
    (∀ a ∈ items, 1 ≤ Wide.width a) ∧ v.next = 7 ∧
      v.lookup 2 = .found 1 (.long 8) ∧ v.lookup 5 = .found 3 (.double 9) ∧
      v.lookup 0 = .inside 0 ∧ v.lookup 3 = .inside 2 ∧ v.lookup 6 = .beyond ∧
      v.lookup 7 = .beyond := by
  intro items v
  have hw : ∀ a ∈ items, 1 ≤ Wide.width a := by decide
  obtain ⟨-, -, -, -, hnext, hlookup⟩ := lookup_ofPushes 1 hw
  have hmissing {offset : Nat} (h : ∀ i < 4, offsetOf 1 items i ≠ offset) :
      ¬∃ i a, items[i]? = some a ∧ offsetOf 1 items i = offset := by
    rintro ⟨i, a, ha, ho⟩
    exact h i (List.getElem?_eq_some_iff.mp ha).1 ho
  refine ⟨hw, hnext, ((hlookup 2).1 1 _).mpr ⟨rfl, rfl⟩, ((hlookup 5).1 3 _).mpr ⟨rfl, rfl⟩, ?_⟩
  exact ⟨(hlookup 0).2 (hmissing (by decide)), (hlookup 3).2 (hmissing (by decide)),
    (hlookup 6).2 (hmissing (by decide)), (hlookup 7).2 (hmissing (by decide))⟩

end MethodMetadata.OffsetVector
