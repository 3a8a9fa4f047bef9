import Mathlib.Algebra.GroupWithZero.Nat
import MethodMetadata.OffsetVector

/-! Lookup in an offset vector finds what lies at an offset. Entries of some width have
increasing offsets, so halving a range of positions comes down to the last offset not beyond. -/
namespace MethodMetadata

section LaidOut
variable {α : Type} [Wide α]

theorem LaidOut.start_le {start next : Nat} {entries : List (Nat × α)}
    (h : LaidOut start entries next) : start ≤ next := by
  induction entries generalizing start with
  | nil => exact Nat.le_of_eq h.symm
  | cons e rest ih => exact Nat.le_trans (Nat.le_add_right _ _) (ih h.2)

theorem LaidOut.length_le {start next : Nat} {entries : List (Nat × α)}
    (h : LaidOut start entries next) (hw : ∀ e ∈ entries, 1 ≤ Wide.width e.2) :
    start + entries.length ≤ next := by
  induction entries generalizing start with
  | nil => exact Nat.le_of_eq h.symm
  | cons e rest ih =>
    have := hw e List.mem_cons_self
    have := ih h.2 fun d hd => hw d (List.mem_cons_of_mem _ hd)
    rw [List.length_cons]
    omega

theorem LaidOut.mem_bounds {start next : Nat} {entries : List (Nat × α)}
    (h : LaidOut start entries next) {e : Nat × α} (he : e ∈ entries) :
    start ≤ e.1 ∧ e.1 + Wide.width e.2 ≤ next := by
  induction entries generalizing start with
  | nil => cases he
  | cons d rest ih =>
    rcases List.mem_cons.mp he with rfl | he
    · exact ⟨Nat.le_of_eq h.1.symm, h.1 ▸ h.2.start_le⟩
    · obtain ⟨hs, hn⟩ := ih h.2 he
      exact ⟨by omega, hn⟩

/-- Offsets grow where every element takes up a slot. -/
theorem LaidOut.pairwise_lt {start next : Nat} {entries : List (Nat × α)}
    (h : LaidOut start entries next) (hw : ∀ e ∈ entries, 1 ≤ Wide.width e.2) :
    entries.Pairwise fun d e => d.1 < e.1 := by
  induction entries generalizing start with
  | nil => exact .nil
  | cons d rest ih =>
    have hd := hw d List.mem_cons_self
    refine .cons (fun e he => ?_) (ih h.2 fun e he => hw e (List.mem_cons_of_mem _ he))
    have := (h.2.mem_bounds he).1
    have := h.1
    omega

/-- Where entries lie is decided by their widths. -/
theorem LaidOut.append_inv {start next : Nat} {before after : List (Nat × α)}
    (h : LaidOut start (before ++ after) next) :
    ∃ middle, LaidOut start before middle ∧ LaidOut middle after next := by
  induction before generalizing start with
  | nil => exact ⟨start, rfl, h⟩
  | cons e rest ih =>
    obtain ⟨middle, hb, ha⟩ := ih h.2
    exact ⟨middle, ⟨h.1, hb⟩, ha⟩

theorem LaidOut.next_eq {start next next' : Nat} {entries : List (Nat × α)}
    (h : LaidOut start entries next) (h' : LaidOut start entries next') : next = next' := by
  induction entries generalizing start with
  | nil => exact Eq.trans h h'.symm
  | cons e rest ih => exact ih h.2 h'.2

/-- The next entry lies behind all widths. -/
theorem LaidOut.next_eq_sum {start next : Nat} {entries : List (Nat × α)}
    (h : LaidOut start entries next) :
    next = start + (entries.map fun e => Wide.width e.2).sum := by
  induction entries generalizing start with
  | nil => exact h
  | cons e rest ih => rw [ih h.2, List.map_cons, List.sum_cons, Nat.add_assoc]

end LaidOut

namespace OffsetVector

variable {α : Type} [Wide α]

theorem ext_entries {v w : OffsetVector α} (hs : v.start = w.start) (he : v.entries = w.entries) :
    v = w := by
  have hn := v.laidOut.next_eq (hs ▸ he ▸ w.laidOut)
  cases v
  cases w
  simp_all

/-- Every element takes up a slot at least. -/
def Spaced (v : OffsetVector α) : Prop :=
  ∀ e ∈ v.entries.toList, 1 ≤ Wide.width e.2

theorem Spaced.offset_lt {v : OffsetVector α} (h : v.Spaced) {i j : Nat} {d e : Nat × α}
    (hi : v.entries[i]? = some d) (hj : v.entries[j]? = some e) (hij : i < j) : d.1 < e.1 := by
  rw [← Array.getElem?_toList] at hi hj
  obtain ⟨hi', rfl⟩ := List.getElem?_eq_some_iff.mp hi
  obtain ⟨hj', rfl⟩ := List.getElem?_eq_some_iff.mp hj
  exact List.pairwise_iff_getElem.mp (v.laidOut.pairwise_lt h) i j hi' hj' hij

theorem exists_entry {v : OffsetVector α} {i : Nat} (h : i < v.size) :
    ∃ e, v.entries[i]? = some e ∧ v.offsetAt i = e.1 :=
  ⟨_, Array.getElem?_eq_getElem h, by rw [offsetAt, Array.getElem?_eq_getElem h]⟩

/-- A range of positions that the last offset up to `offset` falls into, if there is one. -/
structure Within (v : OffsetVector α) (offset base size : Nat) : Prop where
  nonempty : 0 < size
  bounded : base + size ≤ v.size
  below : base = 0 ∨ v.offsetAt base ≤ offset
  above : ∀ i, base + size ≤ i → i < v.size → offset < v.offsetAt i

private theorem Spaced.within_half {v : OffsetVector α} (hv : v.Spaced) {offset base size : Nat}
    (h : v.Within offset base size) (hs : ¬size ≤ 1) :
    v.Within offset (if v.offsetAt (base + size / 2) ≤ offset then base + size / 2 else base)
      (size - size / 2) := by
  have hb := h.bounded
  split
  next hm => exact ⟨by omega, by omega, .inr hm, fun i hi hl => h.above i (by omega) hl⟩
  next hm =>
    refine ⟨by omega, by omega, h.below, fun i hi hl => ?_⟩
    obtain ⟨d, hd, hdo⟩ := exists_entry (v := v) (i := base + size / 2) (by omega)
    obtain ⟨e, he, heo⟩ := exists_entry hl
    rcases Nat.lt_or_eq_of_le (show base + size / 2 ≤ i by omega) with hlt | rfl
    · have := hv.offset_lt hd he hlt
      omega
    · omega

/-- Halving a range keeps the offset within it, until a single position is left. -/
theorem Spaced.within_narrow {v : OffsetVector α} (hv : v.Spaced) {offset base size steps : Nat}
    (h : v.Within offset base size) (hs : size ≤ steps + 1) :
    v.Within offset (v.narrow offset steps base size) 1 := by
  have one (hone : size ≤ 1) : v.Within offset base 1 := by
    have := h.nonempty
    obtain rfl : size = 1 := by omega
    exact h
  induction steps generalizing base size with
  | zero => exact one (by omega)
  | succ steps ih =>
    rw [narrow]
    split
    next hone => exact one hone
    next hone =>
      have hhalf := hv.within_half h hone
      refine ih hhalf (by omega) fun hsmall => ?_
      have := hhalf.nonempty
      rwa [show size - size / 2 = 1 by omega] at hhalf

private theorem Spaced.narrow_eq {v : OffsetVector α} (hv : v.Spaced) {i : Nat} {e : Nat × α}
    (h : v.entries[i]? = some e) : v.narrow e.1 v.size 0 v.size = i := by
  have hl : i < v.size := (Array.getElem?_eq_some_iff.mp h).1
  have ho : v.offsetAt i = e.1 := by simp [offsetAt, h]
  have hall : v.Within e.1 0 v.size := ⟨by omega, by omega, .inl rfl, by omega⟩
  have hw := hv.within_narrow hall (Nat.le_succ _)
  generalize v.narrow e.1 v.size 0 v.size = r at hw
  have hle : ¬r < i := fun hlt => by
    have := hw.above i hlt hl
    omega
  have hge : ¬i < r := fun hlt => by
    have hr := hw.bounded
    obtain ⟨d, hd, hdo⟩ := exists_entry (v := v) (i := r) (by omega)
    have := hv.offset_lt h hd hlt
    have := hw.below
    omega
  omega

private theorem entry_of_lookup {v : OffsetVector α} {offset i : Nat} {a : α}
    (h : v.lookup offset = .found i a) : v.entries[i]? = some (offset, a) := by
  unfold lookup at h
  dsimp only at h
  split at h
  next => cases h
  next e he =>
    split at h
    next ho =>
      obtain ⟨rfl, rfl⟩ := Lookup.found.inj h
      rw [he, ← ho]
    next =>
      split at h
      · cases h
      · split at h <;> cases h

/-- An element is found exactly by the offset at which it starts. -/
theorem Spaced.lookup_eq_found_iff {v : OffsetVector α} (hv : v.Spaced) {offset i : Nat} {a : α} :
    v.lookup offset = .found i a ↔ v.entries[i]? = some (offset, a) := by
  refine ⟨entry_of_lookup, fun h => ?_⟩
  have hr := hv.narrow_eq h
  simp only at hr
  simp [lookup, hr, h]

/-- Looking up an offset finds exactly the element that lies there. -/
theorem Spaced.get?_eq_some_iff {v : OffsetVector α} (hv : v.Spaced) {offset : Nat} {a : α} :
    v.get? offset = some a ↔ (offset, a) ∈ v.entries.toList := by
  rw [List.mem_iff_getElem?]
  simp only [Array.getElem?_toList, ← hv.lookup_eq_found_iff]
  unfold get?
  cases v.lookup offset <;> simp

end OffsetVector

end MethodMetadata
