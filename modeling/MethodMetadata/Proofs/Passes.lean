import MethodMetadata.Outcome

/-! A pass that ends well took every step with success, each one in the state that the steps in
front of it left. -/
namespace MethodMetadata

/-- Outcomes that differ in nothing but their states, which are related. -/
structure Outcome.Related {σ σ' ε α : Type} (R : σ → σ' → Prop) (outcome : Outcome σ ε α)
    (outcome' : Outcome σ' ε α) : Prop where
  result : outcome'.result = outcome.result
  log : outcome'.log = outcome.log
  state : R outcome.state outcome'.state

namespace Pass

variable {σ ε α β : Type} {step : σ → α → Outcome σ ε β}

/-- Steps that succeed one after the other, the values that they give and the state that they
leave. -/
inductive Runs (step : σ → α → Outcome σ ε β) : σ → List α → List β → σ → Prop
  | nil {state : σ} : Runs step state [] [] state
  | cons {state last : σ} {a : α} {b : β} {items : List α} {values : List β}
      (head : (step state a).result = .ok b)
      (tail : Runs step (step state a).state items values last) :
      Runs step state (a :: items) (b :: values) last

theorem result_eq_ok_iff {pass : Pass σ ε β} {values : List β} :
    pass.result = .ok values ↔ pass.failure = none ∧ pass.done = values := by
  unfold result
  cases pass.failure <;> simp

private theorem runOnto_state (done done' : List β) (log log' : List LogRecord) (state : σ)
    (items : List α) :
    (runOnto step done log state items).state = (runOnto step done' log' state items).state := by
  induction items generalizing done done' log log' state with
  | nil => rfl
  | cons a items ih =>
    rw [runOnto, runOnto]
    cases (step state a).result with
    | error e => rfl
    | ok b => exact ih _ _ _ _ _

private theorem runOnto_of_runs {state last : σ} {items : List α} {values : List β}
    (h : Runs step state items values last) (done : List β) (log : List LogRecord) :
    (runOnto step done log state items).result = .ok (done.reverse ++ values) ∧
      (runOnto step done log state items).state = last := by
  induction h generalizing done log with
  | nil => exact ⟨congrArg Except.ok (List.append_nil _).symm, rfl⟩
  | @cons state last a b items values head tail ih =>
    rw [runOnto, head]
    have hb := ih (b :: done) ((step state a).log.reverseAux log)
    rwa [List.reverse_cons, List.append_assoc] at hb

private theorem runs_of_runOnto {state : σ} {items : List α} {done values : List β}
    {log : List LogRecord} (h : (runOnto step done log state items).result = .ok values) :
    ∃ more, values = done.reverse ++ more ∧
      Runs step state items more (runOnto step done log state items).state := by
  induction items generalizing done log state with
  | nil => exact ⟨[], by rw [List.append_nil]; exact (Except.ok.inj h).symm, .nil⟩
  | cons a items ih =>
    rw [runOnto] at h ⊢
    cases hr : (step state a).result with
    | error e =>
      rw [hr] at h
      cases h
    | ok b =>
      simp only [hr] at h ⊢
      obtain ⟨more, rfl, hm⟩ := ih h
      exact ⟨b :: more, by rw [List.reverse_cons, List.append_assoc]; rfl, .cons hr hm⟩

/-- A pass that succeeds is a run of its steps. -/
theorem runs_of_run {state : σ} {items : List α} {values : List β}
    (h : (run step state items).result = .ok values) :
    Runs step state items values (run step state items).state := by
  obtain ⟨more, rfl, hm⟩ := runs_of_runOnto h
  exact hm

/-- A run of steps makes the pass succeed, with its values and its last state. -/
theorem run_of_runs {state last : σ} {items : List α} {values : List β}
    (h : Runs step state items values last) :
    (run step state items).result = .ok values ∧ (run step state items).state = last :=
  runOnto_of_runs h [] []

/-- A pass ends with a step that fails once those in front of it have been taken with success. The
items behind it are not looked at. -/
theorem run_of_runs_error {state mid : σ} {front : List α} {values : List β} {a : α} {e : ε}
    (h : Runs step state front values mid) (he : (step mid a).result = .error e) (rest : List α) :
    (run step state (front ++ a :: rest)).result = .error e ∧
      (run step state (front ++ a :: rest)).state = (step mid a).state := by
  unfold run
  generalize ([] : List β) = done
  generalize ([] : List LogRecord) = log
  induction h generalizing done log with
  | nil =>
    rw [List.nil_append, runOnto, he]
    exact ⟨rfl, rfl⟩
  | cons head tail ih =>
    rw [List.cons_append, runOnto, head]
    exact ih he _ _

private theorem runOnto_cases (step : σ → α → Outcome σ ε β) (done : List β) (log : List LogRecord)
    (state : σ) (items : List α) :
    ∃ values, (runOnto step done log state items).done = done.reverse ++ values ∧
      ((runOnto step done log state items).failure = none ∧
          Runs step state items values (runOnto step done log state items).state ∨
        ∃ front a rest mid e, items = front ++ a :: rest ∧ Runs step state front values mid ∧
          (step mid a).result = .error e ∧
          (runOnto step done log state items).failure = some e ∧
          (runOnto step done log state items).state = (step mid a).state) := by
  induction items generalizing done log state with
  | nil => exact ⟨[], (List.append_nil _).symm, .inl ⟨rfl, .nil⟩⟩
  | cons a items ih =>
    rw [runOnto]
    cases hr : (step state a).result with
    | error e =>
      exact ⟨[], (List.append_nil _).symm, .inr ⟨[], a, items, state, e, rfl, .nil, hr, rfl, rfl⟩⟩
    | ok b =>
      obtain ⟨values, hdone, hcases⟩ :=
        ih (b :: done) ((step state a).log.reverseAux log) (step state a).state
      refine ⟨b :: values, ?_, ?_⟩
      · rw [hdone, List.reverse_cons, List.append_assoc]
        rfl
      · rcases hcases with ⟨hf, hruns⟩ | ⟨front, c, rest, mid, e, rfl, hruns, he, hf, hs⟩
        · exact .inl ⟨hf, .cons hr hruns⟩
        · exact .inr ⟨a :: front, c, rest, mid, e, rfl, .cons hr hruns, he, hf, hs⟩

/-- A pass takes every step with success, or it ends with the first one that fails. -/
theorem run_cases (step : σ → α → Outcome σ ε β) (state : σ) (items : List α) :
    (run step state items).failure = none ∧
        Runs step state items (run step state items).done (run step state items).state ∨
      ∃ front a rest mid e, items = front ++ a :: rest ∧
        Runs step state front (run step state items).done mid ∧ (step mid a).result = .error e ∧
        (run step state items).failure = some e ∧
        (run step state items).state = (step mid a).state := by
  obtain ⟨values, hdone, hcases⟩ := runOnto_cases step [] [] state items
  obtain rfl : (run step state items).done = values := hdone
  exact hcases

private theorem run_cons_state {state : σ} {a : α} {b : β} (items : List α)
    (h : (step state a).result = .ok b) :
    (run step state (a :: items)).state = (run step (step state a).state items).state := by
  rw [run, runOnto, h]
  exact runOnto_state _ _ _ _ _ _

/-- What the step on every item preserves, whether it succeeds or not, a pass preserves. -/
theorem run_invariant_of_mem {P : σ → Prop} {items : List α}
    (hstep : ∀ state, ∀ a ∈ items, P state → P (step state a).state) {state : σ} (hs : P state) :
    P (run step state items).state := by
  unfold run
  generalize ([] : List β) = done
  generalize ([] : List LogRecord) = log
  induction items generalizing done log state with
  | nil => exact hs
  | cons a items ih =>
    have ha := hstep state a List.mem_cons_self hs
    rw [runOnto]
    cases (step state a).result with
    | error e => exact ha
    | ok b => exact ih (fun mid other ho => hstep mid other (List.mem_cons_of_mem _ ho)) ha _ _

/-- What every step preserves, a pass preserves, whether it succeeds or not. -/
theorem run_invariant {P : σ → Prop} (hstep : ∀ state a, P state → P (step state a).state)
    {state : σ} (hs : P state) (items : List α) : P (run step state items).state :=
  run_invariant_of_mem (fun state a _ => hstep state a) hs

/-- Steps that do the same from related states, and leave related states, do so in a pass. -/
theorem run_related {σ' : Type} {step' : σ' → α → Outcome σ' ε β} {R : σ → σ' → Prop}
    (hstep : ∀ state state' a, R state state' → (step state a).Related R (step' state' a))
    {state : σ} {state' : σ'} (h : R state state') (items : List α) :
    (run step' state' items).result = (run step state items).result ∧
      (run step' state' items).log = (run step state items).log ∧
        R (run step state items).state (run step' state' items).state := by
  unfold run
  generalize ([] : List β) = done
  generalize ([] : List LogRecord) = log
  induction items generalizing done log state state' with
  | nil => exact ⟨rfl, rfl, h⟩
  | cons a items ih =>
    have ha := hstep state state' a h
    rw [runOnto, runOnto, ha.result, ha.log]
    cases (step state a).result with
    | error e => exact ⟨rfl, rfl, ha.state⟩
    | ok b => exact ih ha.state _ _

/-- Steps that preserve an invariant, under which they all succeed, run. -/
theorem exists_runs {P : σ → Prop} {items : List α}
    (hstep : ∀ state, ∀ a ∈ items, P state → P (step state a).state)
    (hok : ∀ state, ∀ a ∈ items, P state → ∃ b, (step state a).result = .ok b) {state : σ}
    (hs : P state) : ∃ values last, Runs step state items values last := by
  induction items generalizing state with
  | nil => exact ⟨[], state, .nil⟩
  | cons a items ih =>
    obtain ⟨b, hb⟩ := hok state a List.mem_cons_self hs
    obtain ⟨values, last, hrest⟩ := ih
      (fun mid other ho => hstep mid other (List.mem_cons_of_mem _ ho))
      (fun mid other ho => hok mid other (List.mem_cons_of_mem _ ho))
      (hstep state a List.mem_cons_self hs)
    exact ⟨b :: values, last, .cons hb hrest⟩

namespace Runs

variable {state last : σ} {items : List α} {values : List β}

/-- Each item has its value. -/
theorem length_eq (h : Runs step state items values last) : values.length = items.length := by
  induction h with
  | nil => rfl
  | cons head tail ih => exact congrArg Nat.succ ih

/-- What every step that succeeds preserves, a pass of them preserves. -/
theorem invariant {P : σ → Prop} (h : Runs step state items values last)
    (hstep : ∀ mid, ∀ a ∈ items, ∀ b, (step mid a).result = .ok b → P mid → P (step mid a).state)
    (hs : P state) : P last := by
  induction h with
  | nil => exact hs
  | cons head tail ih =>
    refine ih (fun mid other ho => ?_) (hstep _ _ List.mem_cons_self _ head hs)
    exact hstep mid other (List.mem_cons_of_mem _ ho)

/-- Two runs, of which the second starts where the first ends, are one. -/
theorem append {middle : σ} {items' : List α} {values' : List β}
    (h : Runs step state items values middle) (h' : Runs step middle items' values' last) :
    Runs step state (items ++ items') (values ++ values') last := by
  induction h with
  | nil => exact h'
  | cons head tail ih => exact .cons head (ih h')

/-- The front of a pass is a pass. -/
theorem take (h : Runs step state items values last) (i : Nat) :
    Runs step state (items.take i) (values.take i) (run step state (items.take i)).state := by
  induction h generalizing i with
  | nil =>
    rw [List.take_nil, List.take_nil]
    exact .nil
  | cons head tail ih =>
    cases i with
    | zero => exact .nil
    | succ i =>
      rw [List.take_succ_cons, List.take_succ_cons, run_cons_state _ head]
      exact .cons head (ih i)

/-- Every item is taken in the state that the items in front of it leave. -/
theorem at_index (h : Runs step state items values last) (i : Nat) (hi : i < items.length)
    (hv : i < values.length) :
    (step (run step state (items.take i)).state items[i]).result = .ok values[i] := by
  induction h generalizing i with
  | nil => cases hi
  | cons head tail ih =>
    cases i with
    | zero => exact head
    | succ i =>
      rw [List.take_succ_cons, run_cons_state _ head]
      exact ih i (Nat.lt_of_succ_lt_succ hi) (Nat.lt_of_succ_lt_succ hv)

/-- If every step gives a value that it gives again, and leaves the same state then, a pass on the
values of a pass gives them again. -/
theorem again {step : σ → α → Outcome σ ε α} {P : α → Prop} {items values : List α}
    (hstep : ∀ state a b, (step state a).result = .ok b → P b →
      (step state b).result = .ok b ∧ (step state b).state = (step state a).state)
    (h : Runs step state items values last) (hv : ∀ b ∈ values, P b) :
    Runs step state values values last := by
  induction h with
  | nil => exact .nil
  | cons head tail ih =>
    obtain ⟨hresult, hstate⟩ := hstep _ _ _ head (hv _ List.mem_cons_self)
    refine .cons hresult ?_
    rw [hstate]
    exact ih fun b hb => hv b (List.mem_cons_of_mem _ hb)

theorem state_take_succ (h : Runs step state items values last) (i : Nat) (hi : i < items.length) :
    (run step state (items.take (i + 1))).state =
      (step (run step state (items.take i)).state items[i]).state := by
  induction h generalizing i with
  | nil => cases hi
  | cons head tail ih =>
    rw [List.take_succ_cons, run_cons_state _ head]
    cases i with
    | zero => rfl
    | succ i =>
      rw [List.take_succ_cons, run_cons_state _ head]
      exact ih i (Nat.lt_of_succ_lt_succ hi)

end Runs

end Pass

end MethodMetadata
