import MethodMetadata.Proofs.Interning

/-! Pools in the course of requests for indices. Whatever was asked for before, and whether there
was room for it or not, a text is given its first index, a class one that names it, and both for
good. -/
namespace MethodMetadata.ConstantPool

open Interning

/-- What a pool is asked for the index of. -/
inductive Request
  | ofText (text : String)
  | ofClass (name : String)
  deriving DecidableEq, Repr

def Request.run : Request → Interning UInt16
  | .ofText text => internText text
  | .ofClass name => internClass name

/-- The pool after requests, each of which may have failed. -/
def after (pool : ConstantPool) (requests : List Request) : ConstantPool :=
  requests.foldl (fun pool request => (request.run.run.run pool).2) pool

variable {pool grown : ConstantPool} {text : String} {index : UInt16} {e : ClassFileError}

private theorem grows_internText (pool : ConstantPool) (text : String) :
    pool.Grows ((internText text).run.run pool).2 :=
  (findsOrAdds_internText text).grows trivial pool

private theorem grows_internClass (pool : ConstantPool) (name : String) :
    pool.Grows ((internClass name).run.run pool).2 := by
  have htext := grows_internText pool name
  rcases hr : (internText name).run.run pool with ⟨e | index, middle⟩
  · rw [hr] at htext
    rw [internClass, bind_run_of_error hr]
    exact htext
  · rw [hr] at htext
    rw [internClass, bind_run_of_ok hr]
    exact htext.trans ((findsOrAdds_internClassNamed index).grows trivial middle)

private theorem grows_request (pool : ConstantPool) (request : Request) :
    pool.Grows (request.run.run.run pool).2 := by
  cases request with
  | ofText text => exact grows_internText pool text
  | ofClass name => exact grows_internClass pool name

/-- Requests only add names, so that every constant stays where it is. -/
theorem grows_after (pool : ConstantPool) (requests : List Request) :
    pool.Grows (pool.after requests) := by
  induction requests generalizing pool with
  | nil => exact .refl pool
  | cons request requests ih => exact (grows_request pool request).trans (ih _)

private theorem one_le_next (pool : ConstantPool) : 1 ≤ pool.constants.next :=
  pool.start_eq ▸ pool.constants.laidOut.start_le

private theorem not_fits_iff {c : Constant} (hc : c.width = 1) :
    ¬pool.Fits c ↔ pool.constants.next = 65535 := by
  have hle := pool.next_le
  rw [Fits, hc]
  omega

theorem text_eq_ok_iff_spells :
    pool.text index = .ok text ↔ ∃ c, pool.get index = .ok c ∧ c.spells text = true := by
  rw [text_eq_ok_iff]
  constructor
  · rintro ⟨encoded, hg, hd⟩
    exact ⟨_, hg, EncodedText.spells_iff.mpr hd⟩
  · rintro ⟨_ | _, hg, hs⟩ <;> try cases hs
    exact ⟨_, hg, EncodedText.spells_iff.mp hs⟩

/-- A text is not found exactly if it is nowhere. -/
theorem index?_spells_eq_none_iff :
    pool.index? (Constant.spells text) = none ↔ ∀ index, pool.text index ≠ .ok text := by
  rw [index?_eq_none_iff]
  constructor
  · intro h index ht
    obtain ⟨c, hg, hs⟩ := text_eq_ok_iff_spells.mp ht
    exact Bool.noConfusion (hs.symm.trans (h index c hg))
  · intro h index c hg
    exact Bool.eq_false_iff.mpr fun hs => h index (text_eq_ok_iff_spells.mpr ⟨c, hg, hs⟩)

/-- A text is given the first index at which it stands. -/
theorem le_of_internText (h : (internText text).run.run pool = (.ok index, grown)) {other : UInt16}
    (ht : grown.text other = .ok text) : index ≤ other := by
  have hi := (findsOrAdds_internText text).index? (EncodedText.ofString_spells text) h
  obtain ⟨c, hg, hs⟩ := text_eq_ok_iff_spells.mp ht
  exact le_of_index? hi hg hs

private theorem internText_eq_error_iff :
    (internText text).run.run pool = (.error e, grown) ↔
      (∀ index, pool.text index ≠ .ok text) ∧ pool.constants.next = 65535 ∧ grown = pool ∧
        e = .poolOverflow ⟨.utf8 (.ofString text), 65535⟩ := by
  have hroom : ¬pool.Fits (.utf8 (.ofString text)) ↔ pool.constants.next = 65535 := not_fits_iff rfl
  obtain ⟨found, hi, ho⟩ | ⟨hi, fits, ho⟩ | ⟨hi, hfull, ho⟩ :=
    (findsOrAdds_internText text).outcome pool
  · rw [ho]
    refine ⟨nofun, fun h => ?_⟩
    rw [index?_spells_eq_none_iff.mpr h.1] at hi
    cases hi
  · rw [ho]
    exact ⟨nofun, fun h => absurd fits (hroom.mpr h.2.1)⟩
  · have hnext := hroom.mp hfull
    have hindex : pool.nextIndex = 65535 := by rw [nextIndex, hnext]; rfl
    rw [ho, hindex]
    constructor
    · intro h
      cases h
      exact ⟨index?_spells_eq_none_iff.mp hi, hnext, rfl, rfl⟩
    · rintro ⟨-, -, rfl, rfl⟩
      rfl

/-- A class that finds no room leaves at most the text of its name. -/
theorem internClass_eq_error (h : (internClass text).run.run pool = (.error e, grown)) :
    grown = pool ∨ (∀ index, pool.text index ≠ .ok text) ∧
      grown.toList = pool.toList ++ [(pool.constants.next, .utf8 (.ofString text))] := by
  rcases hr : (internText text).run.run pool with ⟨e' | name, middle⟩
  · rw [internClass, bind_run_of_error hr] at h
    cases h
    exact .inl (internText_eq_error_iff.mp hr).2.2.1
  · rw [internClass, bind_run_of_ok hr] at h
    have hgrown : grown = middle := by
      obtain ⟨found, -, ho⟩ | ⟨-, fits, ho⟩ | ⟨-, -, ho⟩ :=
        (findsOrAdds_internClassNamed name).outcome middle
      · cases h.symm.trans ho
      · cases h.symm.trans ho
      · cases h.symm.trans ho
        rfl
    subst hgrown
    obtain ⟨found, -, ho⟩ | ⟨hi, fits, ho⟩ | ⟨-, -, ho⟩ :=
      (findsOrAdds_internText text).outcome pool
    · cases hr.symm.trans ho
      exact .inl rfl
    · cases hr.symm.trans ho
      exact .inr ⟨index?_spells_eq_none_iff.mp hi, toList_push pool _ fits⟩
    · cases hr.symm.trans ho

/-- After any requests to a pool, its constants are where they were. A text is given its first index
and a class one that names it, and later requests for them give the same and change nothing. A text
is refused exactly if it is nowhere and the last index has been given; that leaves the pool as it
is, and the refusal of a class leaves at most the text of its name. -/
theorem intern_after (start : ConstantPool) (requests : List Request) (text : String) :
    let pool := start.after requests
    (1 ≤ pool.constants.next ∧ pool.constants.next ≤ 65535) ∧
      (∀ index c, start.get index = .ok c → pool.get index = .ok c) ∧
      (∀ index grown, (internText text).run.run pool = (.ok index, grown) →
        grown.text index = .ok text ∧ (∀ other, grown.text other = .ok text → index ≤ other) ∧
          ∀ more, (internText text).run.run (grown.after more) = (.ok index, grown.after more)) ∧
      (∀ index grown, (internClass text).run.run pool = (.ok index, grown) →
        grown.className index = .ok text ∧
          ∀ more, (internClass text).run.run (grown.after more) = (.ok index, grown.after more)) ∧
      (∀ e grown, (internText text).run.run pool = (.error e, grown) ↔
        (∀ index, pool.text index ≠ .ok text) ∧ pool.constants.next = 65535 ∧ grown = pool ∧
          e = .poolOverflow ⟨.utf8 (.ofString text), 65535⟩) ∧
      (∀ e grown, (internClass text).run.run pool = (.error e, grown) →
        grown = pool ∨ (∀ index, pool.text index ≠ .ok text) ∧
          grown.toList = pool.toList ++ [(pool.constants.next, .utf8 (.ofString text))]) := by
  intro pool
  refine ⟨⟨one_le_next pool, pool.next_le⟩, fun index c => (grows_after start requests).get,
    fun index grown hr => ?_, fun index grown hr => ?_, fun e grown => internText_eq_error_iff,
    fun e grown => internClass_eq_error⟩
  · have hlater := (settles_internText text hr).2
    exact ⟨(hlater (.refl grown)).2, fun other => le_of_internText hr,
      fun more => (hlater (grows_after grown more)).1⟩
  · have hlater := (settles_internClass text hr).2
    exact ⟨(hlater (.refl grown)).2, fun more => (hlater (grows_after grown more)).1⟩

end MethodMetadata.ConstantPool
