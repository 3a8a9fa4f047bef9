import MethodMetadata.Editable.Method
import MethodMetadata.Proofs.CodeBodies

/-! Methods open up again to what was stored. The first body, the declared exceptions and all
other attributes are found again in the order in which they are stored. -/
namespace MethodMetadata

open Interning

namespace MethodPart

/-- What an attribute contributes goes by its name, and by whether a body has been found. -/
theorem ofAttribute_eq_ok_iff {pool : ConstantPool} {bodySeen : Bool} {attr : Attribute}
    {part : MethodPart} :
    ofAttribute pool bodySeen attr = .ok part ↔ ∃ name, pool.text attr.nameIndex = .ok name ∧
      if name = Attribute.codeName ∧ ¬bodySeen then ∃ stored body,
        CodeAttribute.format.readAll Attribute.codeName attr.info = .ok stored ∧
        Code.ofAttribute pool stored = .ok body ∧ .code body = part
      else if name = Attribute.exceptionsName then ∃ classes names,
        Attribute.exceptionsFormat.readAll Attribute.exceptionsName attr.info = .ok classes ∧
        List.Forall₂ (fun index name => pool.binaryName index = .ok name) classes names ∧
        .exceptions names = part
      else .other attr = part := by
  rw [ofAttribute, bind_eq_ok_iff]
  refine exists_congr fun name => and_congr_right fun _ => ?_
  split
  · simp only [bind_eq_ok_iff, mapError_eq_ok_iff, pure_eq_ok_iff, exists_and_left]
  · split
    · simp only [bind_eq_ok_iff, mapError_eq_ok_iff, mapM_eq_ok_iff, pure_eq_ok_iff, exists_and_left]
    · exact pure_eq_ok_iff

/-- An attribute is kept as it is if nothing is known of its name, or if it is a body behind
another. -/
theorem ofAttribute_other_iff {pool : ConstantPool} {bodySeen : Bool} {attr a : Attribute} :
    ofAttribute pool bodySeen attr = .ok (.other a) ↔
      attr = a ∧ ∃ name, pool.text attr.nameIndex = .ok name ∧
        (name = Attribute.codeName → bodySeen = true) ∧ name ≠ Attribute.exceptionsName := by
  rw [ofAttribute_eq_ok_iff]
  constructor
  · rintro ⟨name, hn, h⟩
    split at h
    · obtain ⟨_, _, _, _, h⟩ := h
      cases h
    next hc =>
      split at h
      · obtain ⟨_, _, _, _, h⟩ := h
        cases h
      next he =>
        cases h
        exact ⟨rfl, name, hn, fun hname => by simpa [hname] using hc, he⟩
  · rintro ⟨rfl, name, hn, hc, he⟩
    exact ⟨name, hn, by rw [if_neg fun h => h.2 (hc h.1), if_neg he]⟩

/-- An attribute contributes a body if it is the first with the name and the body opens up. -/
theorem ofAttribute_code_iff {pool : ConstantPool} {bodySeen : Bool} {attr : Attribute} {c : Code} :
    ofAttribute pool bodySeen attr = .ok (.code c) ↔
      pool.text attr.nameIndex = .ok Attribute.codeName ∧ bodySeen = false ∧ ∃ stored,
        CodeAttribute.format.readAll Attribute.codeName attr.info = .ok stored ∧
          Code.ofAttribute pool stored = .ok c := by
  rw [ofAttribute_eq_ok_iff]
  constructor
  · rintro ⟨name, hn, h⟩
    split at h
    next hc =>
      obtain ⟨stored, _, hs, hcode, h⟩ := h
      cases h
      exact ⟨hc.1 ▸ hn, by simpa using hc.2, stored, hs, hcode⟩
    · split at h
      · obtain ⟨_, _, _, _, h⟩ := h
        cases h
      · cases h
  · rintro ⟨hn, rfl, stored, hs, hcode⟩
    refine ⟨_, hn, ?_⟩
    rw [if_pos ⟨rfl, Bool.false_ne_true⟩]
    exact ⟨stored, c, hs, hcode, rfl⟩

/-- An attribute contributes exceptions if it has their name and all its indices are of classes. -/
theorem ofAttribute_exceptions_iff {pool : ConstantPool} {bodySeen : Bool} {attr : Attribute}
    {names : List BinaryName} :
    ofAttribute pool bodySeen attr = .ok (.exceptions names) ↔
      pool.text attr.nameIndex = .ok Attribute.exceptionsName ∧ ∃ classes,
        Attribute.exceptionsFormat.readAll Attribute.exceptionsName attr.info = .ok classes ∧
          List.Forall₂ (fun index name => pool.binaryName index = .ok name) classes names := by
  rw [ofAttribute_eq_ok_iff]
  constructor
  · rintro ⟨name, hn, h⟩
    split at h
    · obtain ⟨_, _, _, _, h⟩ := h
      cases h
    · split at h
      next he =>
        obtain ⟨classes, _, hc, hnames, h⟩ := h
        cases h
        exact ⟨he ▸ hn, classes, hc, hnames⟩
      next => cases h
  · rintro ⟨hn, classes, hc, hnames⟩
    have hne : Attribute.exceptionsName ≠ Attribute.codeName := by decide
    refine ⟨_, hn, ?_⟩
    rw [if_neg fun h => hne h.1, if_pos rfl]
    exact ⟨classes, names, hc, hnames, rfl⟩

/-- Attributes and what they contribute one by one, the first body being the only one. -/
inductive Opens (pool : ConstantPool) : Bool → List Attribute → List MethodPart → Prop
  | nil {seen : Bool} : Opens pool seen [] []
  | cons {seen : Bool} {attr : Attribute} {part : MethodPart} {attrs : List Attribute}
      {parts : List MethodPart} (head : ofAttribute pool seen attr = .ok part)
      (tail : Opens pool (seen || part.code?.isSome) attrs parts) :
      Opens pool seen (attr :: attrs) (part :: parts)

private theorem listOnto_eq_ok_iff {pool : ConstantPool} {found parts : List MethodPart}
    {seen : Bool} {attrs : List Attribute} :
    listOnto pool found seen attrs = .ok parts ↔
      ∃ more, Opens pool seen attrs more ∧ parts = found.reverse ++ more := by
  induction attrs generalizing found seen with
  | nil =>
    rw [listOnto, Except.ok.injEq]
    constructor
    · rintro rfl
      exact ⟨[], .nil, (List.append_nil _).symm⟩
    · rintro ⟨_, ⟨⟩, rfl⟩
      exact (List.append_nil _).symm
  | cons attr attrs ih =>
    rw [listOnto]
    cases hp : ofAttribute pool seen attr with
    | error e =>
      refine ⟨nofun, ?_⟩
      rintro ⟨_, _ | ⟨head, tail⟩, -⟩
      rw [hp] at head
      cases head
    | ok part =>
      simp only [ih, List.reverse_cons, List.append_assoc, List.singleton_append]
      constructor
      · rintro ⟨more, ho, rfl⟩
        exact ⟨part :: more, .cons hp ho, rfl⟩
      · rintro ⟨_, _ | ⟨head, tail⟩, rfl⟩
        rw [hp] at head
        cases head
        exact ⟨_, tail, rfl⟩

def seenAfter (seen : Bool) (parts : List MethodPart) : Bool :=
  seen || (parts.findSome? code?).isSome

private theorem seenAfter_cons (seen : Bool) (part : MethodPart) (parts : List MethodPart) :
    seenAfter (seen || part.code?.isSome) parts = seenAfter seen (part :: parts) := by
  cases h : part.code? <;> simp [seenAfter, h]

private theorem Opens.append {pool : ConstantPool} {seen : Bool} {attrs attrs' : List Attribute}
    {parts parts' : List MethodPart} (h : Opens pool seen attrs parts)
    (h' : Opens pool (seenAfter seen parts) attrs' parts') :
    Opens pool seen (attrs ++ attrs') (parts ++ parts') := by
  induction h with
  | nil => simpa [seenAfter] using h'
  | cons head tail ih =>
    rw [← seenAfter_cons] at h'
    exact .cons head (ih h')

private theorem opens_others {pool : ConstantPool} {seen : Bool} {attrs : List Attribute}
    (h : ∀ a ∈ attrs, ofAttribute pool seen a = .ok (.other a)) :
    Opens pool seen attrs (attrs.map .other) := by
  induction attrs with
  | nil => exact .nil
  | cons a attrs ih =>
    refine .cons (h a List.mem_cons_self) ?_
    rw [show (other a).code?.isSome = false from rfl, Bool.or_false]
    exact ih fun b hb => h b (List.mem_cons_of_mem _ hb)

private theorem Opens.others {pool : ConstantPool} {seen : Bool} {attrs : List Attribute}
    {parts : List MethodPart} (h : Opens pool seen attrs parts) :
    ∀ a ∈ parts.filterMap other?,
      ofAttribute pool (seenAfter seen parts) a = .ok (.other a) := by
  induction h with
  | nil => simp
  | @cons seen attr part attrs parts head tail ih =>
    intro a ha
    rw [← seenAfter_cons]
    rw [List.filterMap_cons] at ha
    split at ha
    · exact ih a ha
    next b hb =>
      rcases List.mem_cons.mp ha with rfl | ha
      · cases part <;> cases hb
        obtain ⟨rfl, name, hn, hc, he⟩ := ofAttribute_other_iff.mp head
        refine ofAttribute_other_iff.mpr ⟨rfl, name, hn, fun hname => ?_, he⟩
        rw [seenAfter, hc hname]
        rfl
      · exact ih a ha

theorem Opens.forall₂ {pool : ConstantPool} {seen : Bool} {attrs : List Attribute}
    {parts : List MethodPart} (h : Opens pool seen attrs parts) :
    List.Forall₂ (fun attr part => ∃ seen, ofAttribute pool seen attr = .ok part) attrs parts := by
  induction h with
  | nil => exact .nil
  | cons head tail ih => exact .cons ⟨_, head⟩ ih

theorem Opens.source {pool : ConstantPool} {seen : Bool} {attrs : List Attribute}
    {parts : List MethodPart} (h : Opens pool seen attrs parts) {part : MethodPart}
    (hm : part ∈ parts) : ∃ attr seen', ofAttribute pool seen' attr = .ok part := by
  obtain ⟨attr, -, seen', ha⟩ := exists_of_mem_right h.forall₂ hm
  exact ⟨attr, seen', ha⟩

end MethodPart

namespace Method

open MethodPart

/-- The attributes that a method keeps as they are belong there, as do those of its body. -/
structure Filed (pool : ConstantPool) (m : Method) : Prop where
  attributes : ∀ a ∈ m.attributes, ofAttribute pool m.code.isSome a = .ok (.other a)
  code : ∀ c ∈ m.code, c.Filed pool

theorem Filed.grows {p q : ConstantPool} (hg : p.Grows q) {m : Method} (h : m.Filed p) :
    m.Filed q := by
  refine ⟨fun a ha => ?_, fun c hc => (h.code c hc).grows hg⟩
  obtain ⟨-, name, hn, hkept⟩ := ofAttribute_other_iff.mp (h.attributes a ha)
  exact ofAttribute_other_iff.mpr ⟨rfl, name, hg.text hn, hkept⟩

/-- What a stored method opens up to, field by field. -/
theorem ofMember_eq_ok_iff {pool : ConstantPool} {stored : Member} {m : Method} :
    ofMember pool stored = .ok m ↔ ∃ parts,
      m.flags = stored.flags ∧ pool.text stored.nameIndex = .ok m.name.text ∧
      pool.text stored.descriptorIndex = .ok m.descriptor ∧
      Opens pool false stored.attributes parts ∧ m.exceptions = parts.flatMap names ∧
      m.code = parts.findSome? code? ∧ m.attributes = parts.filterMap other? := by
  simp only [ofMember, bind_eq_ok_iff, mapError_eq_ok_iff, UnqualifiedName.ofString_eq_ok_iff,
    listOnto_eq_ok_iff, pure_eq_ok_iff]
  constructor
  · rintro ⟨_, hn, _, rfl, _, hd, _, ⟨_, ho, rfl⟩, rfl⟩
    exact ⟨_, rfl, hn, hd, ho, rfl, rfl, rfl⟩
  · rintro ⟨parts, hf, hn, hd, ho, he, hc, ha⟩
    refine ⟨_, hn, _, rfl, _, hd, _, ⟨parts, ho, rfl⟩, ?_⟩
    cases m
    simp_all

/-- A method that was opened up is filed. -/
theorem filed_of_ofMember {pool : ConstantPool} {stored : Member} {m : Method}
    (h : ofMember pool stored = .ok m) : m.Filed pool := by
  obtain ⟨parts, -, -, -, ho, -, hc, ha⟩ := ofMember_eq_ok_iff.mp h
  refine ⟨fun a hm => ?_, fun c hm => ?_⟩
  · rw [hc]
    exact ho.others a (ha ▸ hm)
  · obtain ⟨part, hp, hcode⟩ := List.exists_of_findSome?_eq_some (hc ▸ hm)
    obtain ⟨attr, seen, ha⟩ := ho.source hp
    cases part <;> cases hcode
    obtain ⟨-, -, stored, -, hcode⟩ := ofAttribute_code_iff.mp ha
    exact Code.filed_of_ofAttribute hcode

/-- The method with room for all local variables of its body. -/
def raised (m : Method) : Method :=
  { m with code := m.code.map Code.raised }

/-- The attribute that a body is stored in. -/
structure HoldsBody (pool : ConstantPool) (code : Code) (attr : Attribute) : Prop where
  named : pool.text attr.nameIndex = .ok Attribute.codeName
  written : ∃ stored, code.StoredAs pool stored ∧
    CodeAttribute.format.write stored = .ok attr.info

abbrev HoldsExceptions (pool : ConstantPool) (names : List BinaryName) (attrs : List Attribute) :
    Prop :=
  Attribute.Holds pool Attribute.exceptionsName Attribute.exceptionsFormat
    (fun name index => pool.binaryName index = .ok name) names attrs

private theorem HoldsBody.ofAttribute {pool : ConstantPool} {code : Code} {attr : Attribute}
    (h : HoldsBody pool code attr) (hfits : attr.Fits) (hfiled : code.Filed pool) :
    MethodPart.ofAttribute pool false attr = .ok (.code code.raised) := by
  obtain ⟨stored, hs, hw⟩ := h.written
  have hshort : stored.bytecode.length < 2 ^ 32 := by
    have := hfiled.short
    rw [hs.bytecode]
    omega
  have hback : CodeAttribute.format.ReadsBack stored :=
    CodeAttribute.readsBack hshort (CodeAttribute.fits_of_write hw hfits)
  exact ofAttribute_code_iff.mpr
    ⟨h.named, rfl, stored, hback.readAll hw Attribute.codeName, hs.ofAttribute hfiled⟩

private theorem HoldsExceptions.opens {pool : ConstantPool} {names : List BinaryName}
    {attrs : List Attribute} (h : HoldsExceptions pool names attrs) (seen : Bool) :
    Opens pool seen attrs (if names.isEmpty then [] else [.exceptions names]) := by
  cases h with
  | none => exact .nil
  | one some related named written read =>
    rw [if_neg fun he => some (List.isEmpty_iff.mp he)]
    exact .cons (ofAttribute_exceptions_iff.mpr ⟨named, _, read, related.flip⟩) .nil

private theorem settles_internCode (code : Option Code) :
    Settles (internCode code) fun pool attrs =>
      List.Forall₂ (HoldsBody pool) code.toList attrs := by
  cases code with
  | none =>
    refine (Settles.pure []).mono ?_
    rintro pool _ rfl
    exact .nil
  | some code =>
    refine (code.settles_storedAs.bind fun stored =>
      (ConstantPool.settles_internAttribute _ _).bind fun attr => .pure [attr]).mono ?_
    rintro pool _ ⟨stored, hs, attr, ⟨hn, hw⟩, rfl⟩
    exact .cons ⟨hn, stored, hs, hw⟩ .nil

private theorem settles_internExceptions (names : List BinaryName) :
    Settles (internExceptions names) fun pool attrs => HoldsExceptions pool names attrs := by
  unfold internExceptions
  split
  next he =>
    obtain rfl := List.isEmpty_iff.mp he
    refine (Settles.pure []).mono ?_
    rintro pool _ rfl
    exact .none
  next he =>
    refine ((Settles.mapM fun name _ => ConstantPool.settles_internClass name.text).bind
      fun classes => Attribute.settles_holds (Attribute.readsBack_exceptions classes) names
        fun pool name index => pool.binaryName index = .ok name).mono ?_
    rintro pool attrs ⟨classes, hc, hholds⟩
    refine hholds (fun hnil => he (List.isEmpty_iff.mpr hnil)) ?_
    exact hc.imp fun _ _ h => ConstantPool.binaryName_eq_ok_iff.mpr h

/-- What a method is stored as: the body first, then the exceptions and all other attributes. -/
structure StoredAs (pool : ConstantPool) (m : Method) (stored : Member) : Prop where
  flags : stored.flags = m.flags
  name : pool.text stored.nameIndex = .ok m.name.text
  descriptor : pool.text stored.descriptorIndex = .ok m.descriptor
  attributes : ∃ body exceptions, List.Forall₂ (HoldsBody pool) m.code.toList body ∧
    HoldsExceptions pool m.exceptions exceptions ∧
    stored.attributes = body ++ exceptions ++ m.attributes

/-- Storing a method settles on one that opens up to it again. -/
theorem settles_storedAs (m : Method) :
    Settles m.toMember fun pool stored => m.StoredAs pool stored := by
  refine ((ConstantPool.settles_internText _).bind fun nameIndex =>
    (ConstantPool.settles_internText _).bind fun descriptorIndex =>
      (settles_internCode _).bind fun code => (settles_internExceptions _).bind fun exceptions =>
        .pure (⟨m.flags, nameIndex, descriptorIndex,
          code ++ exceptions ++ m.attributes⟩ : Member)).mono ?_
  rintro pool _ ⟨nameIndex, hn, descriptorIndex, hd, body, hb, exceptions, he, rfl⟩
  exact ⟨rfl, hn, hd, body, exceptions, hb, he, rfl⟩

/-- What the attributes of a stored method contribute, in order. -/
def parts (m : Method) : List MethodPart :=
  m.code.toList.map .code ++ (if m.exceptions.isEmpty then [] else [.exceptions m.exceptions]) ++
    m.attributes.map .other

private theorem parts_names (m : Method) : m.parts.flatMap MethodPart.names = m.exceptions := by
  have hother : (m.attributes.map other).flatMap MethodPart.names = [] := by
    simp [List.flatMap_eq_nil_iff, MethodPart.names]
  rw [parts, List.flatMap_append, List.flatMap_append, hother, List.append_nil]
  cases m.code <;> cases m.exceptions <;> simp [MethodPart.names]

private theorem parts_code (m : Method) : m.parts.findSome? MethodPart.code? = m.code := by
  have hother : (m.attributes.map other).findSome? MethodPart.code? = none := by
    simp [List.findSome?_eq_none_iff, MethodPart.code?]
  rw [parts, List.findSome?_append, List.findSome?_append, hother]
  cases m.code <;> cases m.exceptions <;> simp [MethodPart.code?]

private theorem parts_other (m : Method) : m.parts.filterMap MethodPart.other? = m.attributes := by
  rw [parts, List.filterMap_append, List.filterMap_append]
  cases m.code <;> cases m.exceptions <;>
    simp [MethodPart.other?, List.filterMap_cons, Function.comp_def]

theorem StoredAs.length_locals_lt {pool : ConstantPool} {m : Method} {stored : Member}
    (h : m.StoredAs pool stored) : ∀ c ∈ m.code, c.locals.length < 65536 := by
  intro c hc
  obtain ⟨body, exceptions, hbody, -⟩ := h.attributes
  obtain ⟨attr, -, hattr⟩ := exists_of_mem_left hbody (Option.mem_toList.mpr hc)
  obtain ⟨code, hcode, -⟩ := hattr.written
  exact hcode.length_locals_lt

/-- A stored method opens up to the method, with room for its local variables. -/
theorem StoredAs.ofMember {pool : ConstantPool} {m : Method} {stored : Member}
    (h : m.StoredAs pool stored) (hfits : ∀ a ∈ stored.attributes, a.Fits) (hfiled : m.Filed pool) :
    ofMember pool stored = .ok m.raised := by
  obtain ⟨body, exceptions, hb, he, ha⟩ := h.attributes
  have hbody : Opens pool false body (m.raised.code.toList.map .code) := by
    rw [ha] at hfits
    rw [raised]
    cases hc : m.code with
    | none =>
      rw [hc] at hb
      cases hb
      exact .nil
    | some code =>
      rw [hc] at hb
      obtain _ | ⟨hattr, _ | _⟩ := hb
      exact .cons (hattr.ofAttribute (hfits _ (by simp)) (hfiled.code code hc)) .nil
  -- The kept attributes may have the name of a body exactly if there is one in front of them.
  have hseen : seenAfter false (m.raised.code.toList.map .code ++
      if m.exceptions.isEmpty then [] else [.exceptions m.exceptions]) = m.code.isSome := by
    rw [raised, seenAfter, List.findSome?_append]
    cases m.code <;> cases m.exceptions <;> rfl
  have hothers : Opens pool m.code.isSome m.attributes (m.attributes.map .other) :=
    opens_others hfiled.attributes
  rw [← hseen] at hothers
  have hopens : Opens pool false stored.attributes m.raised.parts := by
    rw [ha]
    exact (hbody.append (he.opens _)).append hothers
  exact ofMember_eq_ok_iff.mpr ⟨m.raised.parts, h.flags.symm, h.name, h.descriptor, hopens,
    m.raised.parts_names.symm, m.raised.parts_code.symm, m.raised.parts_other.symm⟩

/-- Making room changes nothing of what is stored. -/
theorem toMember_raised (m : Method) : m.raised.toMember = m.toMember := by
  have hcode : internCode m.raised.code = internCode m.code := by
    rw [raised]
    cases m.code with
    | none => rfl
    | some code => rw [Option.map_some, internCode, internCode, code.toAttribute_raised]
  rw [toMember, hcode]
  rfl

end Method

end MethodMetadata
