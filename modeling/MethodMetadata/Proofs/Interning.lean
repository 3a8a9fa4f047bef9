import MethodMetadata.Editable.Code
import MethodMetadata.Proofs.PoolGrowth

/-! Interning steps settle: in any pool that has grown from theirs they give the same values
again, add nothing, and what they promise of the values stays true. -/
namespace MethodMetadata

namespace Interning

open ConstantPool

variable {α β : Type}

private theorem bind_run_eq_ok {act : Interning α} {f : α → Interning β} {pool grown : ConstantPool}
    {b : β} (h : (act >>= f).run.run pool = (.ok b, grown)) :
    ∃ a middle, act.run.run pool = (.ok a, middle) ∧ (f a).run.run middle = (.ok b, grown) := by
  rw [ExceptT.run_bind, StateT.run_bind] at h
  rcases he : act.run.run pool with ⟨_ | a, middle⟩
  · rw [he] at h
    cases congrArg Prod.fst h
  · rw [he] at h
    exact ⟨a, middle, rfl, h⟩

theorem bind_run_of_ok {act : Interning α} {f : α → Interning β} {pool middle : ConstantPool}
    {a : α} (h : act.run.run pool = (.ok a, middle)) :
    (act >>= f).run.run pool = (f a).run.run middle := by
  rw [ExceptT.run_bind, StateT.run_bind, h]
  rfl

theorem bind_run_of_error {act : Interning α} {f : α → Interning β} {pool middle : ConstantPool}
    {e : ClassFileError} (h : act.run.run pool = (.error e, middle)) :
    (act >>= f).run.run pool = (.error e, middle) := by
  rw [ExceptT.run_bind, StateT.run_bind, h]
  rfl

/-- If a step succeeds, it adds names only, and in every later pool it gives the same value
without adding anything, of which `Post` holds there. -/
def Settles (act : Interning α) (Post : ConstantPool → α → Prop) : Prop :=
  ∀ ⦃pool value grown⦄, act.run.run pool = (.ok value, grown) →
    pool.Grows grown ∧
      ∀ ⦃later⦄, grown.Grows later → act.run.run later = (.ok value, later) ∧ Post later value

namespace Settles

theorem mono {act : Interning α} {Post Post' : ConstantPool → α → Prop} (h : Settles act Post)
    (hp : ∀ pool value, Post pool value → Post' pool value) : Settles act Post' := by
  intro pool value grown hr
  obtain ⟨hg, hs⟩ := h hr
  exact ⟨hg, fun later hl => ⟨(hs hl).1, hp _ _ (hs hl).2⟩⟩

theorem pure (a : α) : Settles (Pure.pure a) fun _ value => value = a := by
  intro pool value grown hr
  obtain ⟨hv, rfl⟩ := Prod.mk.inj hr
  obtain rfl := Except.ok.inj hv
  exact ⟨.refl _, fun later _ => ⟨rfl, rfl⟩⟩

theorem throw (e : ClassFileError) (Post : ConstantPool → α → Prop) :
    Settles (MonadExcept.throw e) Post := by
  intro pool value grown hr
  cases congrArg Prod.fst hr

/-- One step behind another settles on what both settle on. -/
theorem bind {act : Interning α} {f : α → Interning β} {Post : ConstantPool → α → Prop}
    {Post' : α → ConstantPool → β → Prop} (ha : Settles act Post)
    (hf : ∀ a, Settles (f a) (Post' a)) :
    Settles (act >>= f) fun pool b => ∃ a, Post pool a ∧ Post' a pool b := by
  intro pool b grown hr
  obtain ⟨a, middle, har, hbr⟩ := bind_run_eq_ok hr
  obtain ⟨hga, hsa⟩ := ha har
  obtain ⟨hgb, hsb⟩ := hf a hbr
  refine ⟨hga.trans hgb, fun later hl => ?_⟩
  obtain ⟨hra, hpa⟩ := hsa (hgb.trans hl)
  obtain ⟨hrb, hpb⟩ := hsb hl
  exact ⟨by rw [bind_run_of_ok hra, hrb], a, hpa, hpb⟩

/-- A step taken for each item settles on a value for each. -/
theorem mapM {f : α → Interning β} {Post : α → ConstantPool → β → Prop} {items : List α}
    (hf : ∀ a ∈ items, Settles (f a) (Post a)) :
    Settles (items.mapM f) fun pool values =>
      List.Forall₂ (fun a b => Post a pool b) items values := by
  induction items with
  | nil => exact (pure []).mono fun _ _ h => h ▸ .nil
  | cons a items ih =>
    rw [List.mapM_cons]
    have htail := ih fun b hb => hf b (List.mem_cons_of_mem _ hb)
    refine ((hf a List.mem_cons_self).bind fun b => htail.bind fun bs => pure (b :: bs)).mono ?_
    rintro pool _ ⟨b, hb, bs, hbs, rfl⟩
    exact .cons hb hbs

end Settles

end Interning

def Constant.spells (text : String) : Constant → Bool
  | .utf8 encoded => encoded.spells text
  | _ => false

def Constant.isClassNamed (name : UInt16) : Constant → Bool
  | .classRef found => found == name
  | _ => false

namespace ConstantPool

open Interning

/-- A step finds the first constant with a property, or else adds one. -/
def FindsOrAdds (act : Interning UInt16) (f : Constant → Bool) (c : Constant) : Prop :=
  ∀ pool, act.run.run pool =
    match pool.index? f with
    | some index => (.ok index, pool)
    | none => (add c).run.run pool

/-- A text is found by what it spells. -/
theorem findsOrAdds_internText (text : String) :
    FindsOrAdds (internText text) (Constant.spells text) (.utf8 (.ofString text)) :=
  fun _ => rfl

/-- A class is found by the index of its name. -/
theorem findsOrAdds_internClassNamed (name : UInt16) :
    FindsOrAdds (internClassNamed name) (Constant.isClassNamed name) (.classRef name) :=
  fun _ => rfl

/-- What a step that finds or adds can come to: it finds, or adds, or there is no room. -/
theorem FindsOrAdds.outcome {act : Interning UInt16} {f : Constant → Bool} {c : Constant}
    (h : FindsOrAdds act f c) (pool : ConstantPool) :
    (∃ index, pool.index? f = some index ∧ act.run.run pool = (.ok index, pool)) ∨
      (pool.index? f = none ∧ ∃ fits : pool.Fits c,
        act.run.run pool = (.ok pool.nextIndex, pool.push c fits)) ∨
      (pool.index? f = none ∧ ¬pool.Fits c ∧
        act.run.run pool = (.error (.poolOverflow ⟨c, pool.nextIndex⟩), pool)) := by
  rw [h pool]
  cases hi : pool.index? f with
  | some index => exact .inl ⟨index, rfl, rfl⟩
  | none =>
    by_cases fits : pool.Fits c
    · exact .inr (.inl ⟨rfl, fits, dif_pos fits⟩)
    · exact .inr (.inr ⟨rfl, fits, dif_neg fits⟩)

/-- Whether it succeeds or not, it adds nothing but its constant. -/
theorem FindsOrAdds.grows {act : Interning UInt16} {f : Constant → Bool} {c : Constant}
    (h : FindsOrAdds act f c) (hc : c.IsName) (pool : ConstantPool) :
    pool.Grows (act.run.run pool).2 := by
  obtain ⟨index, -, hr⟩ | ⟨-, fits, hr⟩ | ⟨-, -, hr⟩ := h.outcome pool
  · exact hr ▸ .refl pool
  · exact hr ▸ grows_push pool fits hc
  · exact hr ▸ .refl pool

/-- Once it succeeds, what it gives is the first constant with the property. -/
theorem FindsOrAdds.index? {act : Interning UInt16} {f : Constant → Bool} {c : Constant}
    (h : FindsOrAdds act f c) (hf : f c = true) {pool grown : ConstantPool} {index : UInt16}
    (hr : act.run.run pool = (.ok index, grown)) : grown.index? f = some index := by
  obtain ⟨found, hi, ho⟩ | ⟨hi, fits, ho⟩ | ⟨-, -, ho⟩ := h.outcome pool
  · cases hr.symm.trans ho
    exact hi
  · cases hr.symm.trans ho
    exact index?_push fits hi hf
  · cases hr.symm.trans ho

private theorem FindsOrAdds.settles {act : Interning UInt16} {f : Constant → Bool} {c : Constant}
    (h : FindsOrAdds act f c) (hf : f c = true) (hc : c.IsName) :
    Settles act fun pool index => ∃ d, pool.get index = .ok d ∧ f d = true := by
  intro pool value grown hr
  have hgrows : pool.Grows grown := by
    have hg := h.grows hc pool
    rwa [hr] at hg
  refine ⟨hgrows, fun later hl => ?_⟩
  have hi := hl.index? (h.index? hf hr)
  exact ⟨by rw [h later, hi], get_of_index? hi⟩

/-- An interned text stands at its index. -/
theorem settles_internText (text : String) :
    Settles (internText text) fun pool index => pool.text index = .ok text := by
  refine ((findsOrAdds_internText text).settles (EncodedText.ofString_spells text) trivial).mono ?_
  rintro pool index ⟨_ | _, hd, hs⟩ <;> try cases hs
  exact text_eq_ok_iff.mpr ⟨_, hd, EncodedText.spells_iff.mp hs⟩

private theorem settles_internClassNamed (name : UInt16) :
    Settles (internClassNamed name) fun pool index => pool.get index = .ok (.classRef name) := by
  refine ((findsOrAdds_internClassNamed name).settles (beq_self_eq_true name) trivial).mono ?_
  rintro pool index ⟨_ | _, hd, hs⟩ <;> try cases hs
  rw [hd, eq_of_beq hs]

/-- An interned class stands at its index, under its name. -/
theorem settles_internClass (text : String) :
    Settles (internClass text) fun pool index => pool.className index = .ok text := by
  refine ((settles_internText text).bind settles_internClassNamed).mono ?_
  rintro pool index ⟨name, ht, hg⟩
  exact className_eq_ok_iff.mpr ⟨name, hg, ht⟩

theorem settles_internAttribute (name : String) (info : Except Fault (List UInt8)) :
    Settles (internAttribute name info) fun pool attr =>
      pool.text attr.nameIndex = .ok name ∧ info = .ok attr.info := by
  cases info with
  | ok info =>
    refine ((settles_internText name).bind fun index => .pure (⟨index, info⟩ : Attribute)).mono ?_
    rintro pool _ ⟨index, ht, rfl⟩
    exact ⟨ht, rfl⟩
  | error fault =>
    refine ((settles_internText name).bind fun index =>
      .throw (.malformed fault) fun _ _ => False).mono ?_
    rintro pool _ ⟨index, ht, h⟩
    exact h.elim

end ConstantPool

end MethodMetadata
