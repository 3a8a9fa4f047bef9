import Mathlib.Data.List.Forall2

/-! Steps that may fail, taken apart: a sequence succeeds exactly if its steps do, and a list is
traversed exactly if every item is. -/
namespace MethodMetadata

variable {ε α β γ : Type}

/-- Two steps succeed if the first one does, and the second one on its value. -/
theorem bind_eq_ok_iff {x : Except ε α} {f : α → Except ε β} {b : β} :
    (x >>= f) = .ok b ↔ ∃ a, x = .ok a ∧ f a = .ok b := by
  cases x <;> simp [bind, Except.bind]

/-- Two steps fail if the first one does, or the second one on its value. -/
theorem bind_eq_error_iff {x : Except ε α} {f : α → Except ε β} {e : ε} :
    (x >>= f) = .error e ↔ x = .error e ∨ ∃ a, x = .ok a ∧ f a = .error e := by
  cases x <;> simp [bind, Except.bind]

theorem pure_eq_ok_iff {a b : α} : (pure a : Except ε α) = .ok b ↔ a = b := by
  simp [pure, Except.pure]

theorem map_eq_ok_iff {x : Except ε α} {f : α → β} {b : β} :
    x.map f = .ok b ↔ ∃ a, x = .ok a ∧ f a = b := by
  cases x <;> simp [Except.map]

theorem map_eq_error_iff {x : Except ε α} {f : α → β} {e : ε} :
    x.map f = .error e ↔ x = .error e := by
  cases x <;> simp [Except.map]

theorem mapError_eq_ok_iff {ε' : Type} {x : Except ε α} {f : ε → ε'} {a : α} :
    x.mapError f = .ok a ↔ x = .ok a := by
  cases x <;> simp [Except.mapError]

theorem mapError_eq_error_iff {ε' : Type} {x : Except ε α} {f : ε → ε'} {e : ε'} :
    x.mapError f = .error e ↔ ∃ cause, x = .error cause ∧ f cause = e := by
  cases x <;> simp [Except.mapError]

theorem toOption_eq_some_iff {x : Except ε α} {a : α} : x.toOption = some a ↔ x = .ok a := by
  cases x <;> simp [Except.toOption]

theorem isSome_toOption_iff {x : Except ε α} : x.toOption.isSome ↔ ∃ a, x = .ok a := by
  cases x <;> simp [Except.toOption]

/-- A list is traversed with success exactly if every item gives its value. -/
theorem mapM_eq_ok_iff {f : α → Except ε β} {items : List α} {values : List β} :
    items.mapM f = .ok values ↔ List.Forall₂ (fun a b => f a = .ok b) items values := by
  induction items generalizing values with
  | nil => cases values <;> simp [pure, Except.pure]
  | cons a items ih =>
    rw [List.mapM_cons, bind_eq_ok_iff]
    constructor
    · rintro ⟨b, hb, h⟩
      obtain ⟨bs, hbs, h⟩ := bind_eq_ok_iff.mp h
      obtain rfl := pure_eq_ok_iff.mp h
      exact .cons hb (ih.mp hbs)
    · rintro (_ | ⟨hb, hbs⟩)
      exact ⟨_, hb, bind_eq_ok_iff.mpr ⟨_, ih.mpr hbs, rfl⟩⟩

/-- What holds of the steps of a traversal holds of all of it, if it passes on to sequences. -/
theorem mapM_closed {m : Type → Type} [Monad m] [LawfulMonad m] {P : ∀ ⦃γ : Type⦄, m γ → Prop}
    (hpure : ∀ {γ : Type} (c : γ), P (pure c))
    (hbind : ∀ {γ δ : Type} {act : m γ} {f : γ → m δ}, P act → (∀ c, P (f c)) → P (act >>= f))
    {f : α → m β} {items : List α} (hf : ∀ a ∈ items, P (f a)) : P (items.mapM f) := by
  induction items with
  | nil => exact hpure []
  | cons a items ih =>
    rw [List.mapM_cons]
    have htail := ih fun b hb => hf b (List.mem_cons_of_mem _ hb)
    exact hbind (hf a List.mem_cons_self) fun b => hbind htail fun bs => hpure (b :: bs)

def failure? : Except ε α → Option ε
  | .ok _ => none
  | .error e => some e

theorem failure?_eq_some_iff {x : Except ε α} {e : ε} : failure? x = some e ↔ x = .error e := by
  cases x <;> simp [failure?]

/-- A list fails in the way of its first item that fails. -/
theorem mapM_eq_error_iff_findSome? {f : α → Except ε β} {items : List α} {e : ε} :
    items.mapM f = .error e ↔ items.findSome? (fun a => failure? (f a)) = some e := by
  induction items with
  | nil => simp [pure, Except.pure]
  | cons a items ih =>
    rw [List.mapM_cons, List.findSome?_cons, bind_eq_error_iff]
    cases f a with
    | error e' => simp [failure?]
    | ok b => simp [failure?, bind_eq_error_iff, ih, pure, Except.pure]

/-- If items fail in one way only, a list fails exactly if some item does. -/
theorem mapM_eq_error_iff {f : α → Except ε β} {items : List α} {only : ε}
    (hf : ∀ a ∈ items, ∀ e, f a = .error e → e = only) (e : ε) :
    items.mapM f = .error e ↔ ∃ a ∈ items, f a = .error e := by
  have hfound {e : ε} (h : items.findSome? (fun a => failure? (f a)) = some e) :
      ∃ a ∈ items, f a = .error e := by
    obtain ⟨a, ha, h⟩ := List.exists_of_findSome?_eq_some h
    exact ⟨a, ha, failure?_eq_some_iff.mp h⟩
  rw [mapM_eq_error_iff_findSome?]
  refine ⟨hfound, ?_⟩
  rintro ⟨a, ha, h⟩
  cases hfirst : items.findSome? (fun a => failure? (f a)) with
  | none =>
    have hnone := List.findSome?_eq_none_iff.mp hfirst a ha
    rw [h] at hnone
    cases hnone
  | some e' =>
    obtain ⟨b, hb, h'⟩ := hfound hfirst
    rw [hf a ha e h, hf b hb e' h']

/-- Items that all have partners can be lined up with them. -/
theorem exists_forall₂ {R : α → β → Prop} {items : List α} (h : ∀ a ∈ items, ∃ b, R a b) :
    ∃ values, List.Forall₂ R items values := by
  induction items with
  | nil => exact ⟨[], .nil⟩
  | cons a items ih =>
    obtain ⟨b, hb⟩ := h a List.mem_cons_self
    obtain ⟨bs, hbs⟩ := ih fun a' ha => h a' (List.mem_cons_of_mem _ ha)
    exact ⟨b :: bs, .cons hb hbs⟩

theorem exists_of_mem_right {R : α → β → Prop} {items : List α} {values : List β}
    (h : List.Forall₂ R items values) {b : β} (hb : b ∈ values) : ∃ a ∈ items, R a b := by
  induction h with
  | nil => cases hb
  | cons head tail ih =>
    rcases List.mem_cons.mp hb with rfl | hb
    · exact ⟨_, List.mem_cons_self, head⟩
    · obtain ⟨a, ha, hr⟩ := ih hb
      exact ⟨a, List.mem_cons_of_mem _ ha, hr⟩

theorem exists_of_mem_left {R : α → β → Prop} {items : List α} {values : List β}
    (h : List.Forall₂ R items values) {a : α} (ha : a ∈ items) : ∃ b ∈ values, R a b :=
  exists_of_mem_right h.flip ha

/-- Items with a property are found by the values that tell which they are. -/
theorem filter_eq_filterMap {R : α → β → Prop} {p : α → Bool} {f : β → Option α} {items : List α}
    {values : List β} (h : List.Forall₂ R items values)
    (hf : ∀ a b, R a b → f b = if p a then some a else none) :
    items.filter p = values.filterMap f := by
  induction h with
  | nil => rfl
  | cons head tail ih =>
    rw [List.filter_cons, List.filterMap_cons, ih, hf _ _ head]
    split <;> rfl

/-- Lists that are related to one list are related to each other. -/
theorem forall₂_of_common {R : α → β → Prop} {S : α → γ → Prop} {T : β → γ → Prop} {items : List α}
    {values : List β} {others : List γ} (h : List.Forall₂ R items values)
    (h' : List.Forall₂ S items others) (ht : ∀ a b c, R a b → S a c → T b c) :
    List.Forall₂ T values others := by
  induction h generalizing others with
  | nil =>
    cases h'
    exact .nil
  | cons head tail ih =>
    cases h' with
    | cons head' tail' => exact .cons (ht _ _ _ head head') (ih tail')

end MethodMetadata
