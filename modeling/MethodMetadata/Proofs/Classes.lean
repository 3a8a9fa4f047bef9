import MethodMetadata.Editable.Class
import MethodMetadata.Proofs.Methods

/-! Classes open up again to what was stored. What is stored once is a normal form: opened up and
stored again it gives the same class file, byte for byte. -/
namespace MethodMetadata

open Interning

namespace Class

/-- The names of a class are where its file refers to them, and its methods are filed there. -/
structure Filed (c : Class) : Prop where
  name : c.stored.constants.binaryName c.stored.thisClass = .ok c.name
  superName : superNameAt c.stored.constants c.stored.superClass = .ok c.superName
  methods : ∀ m ∈ c.methods, m.Filed c.stored.constants

/-- What a class file opens up to, field by field. -/
theorem ofClassFile_eq_ok_iff {file : ClassFile} {c : Class} :
    ofClassFile file = .ok c ↔ file.constants.binaryName file.thisClass = .ok c.name ∧
      superNameAt file.constants file.superClass = .ok c.superName ∧
      List.Forall₂ (fun stored m => Method.ofMember file.constants stored = .ok m) file.methods
        c.methods ∧ c.stored = { file with methods := [] } := by
  simp only [ofClassFile, bind_eq_ok_iff, mapM_eq_ok_iff, pure_eq_ok_iff]
  constructor
  · rintro ⟨_, hn, _, hs, _, hm, rfl⟩
    exact ⟨hn, hs, hm, rfl⟩
  · rintro ⟨hn, hs, hm, hf⟩
    refine ⟨_, hn, _, hs, _, hm, ?_⟩
    rw [← hf]

private theorem superNameAt_grows {p q : ConstantPool} (hg : p.Grows q) {index : UInt16}
    {name : Option BinaryName} (h : superNameAt p index = .ok name) :
    superNameAt q index = .ok name := by
  unfold superNameAt at h ⊢
  split at h
  next h0 =>
    rw [if_pos h0]
    exact h
  next h0 =>
    obtain ⟨found, hf, rfl⟩ := map_eq_ok_iff.mp h
    rw [if_neg h0]
    exact map_eq_ok_iff.mpr ⟨found, hg.binaryName hf, rfl⟩

private theorem filed_of_ofClassFile {file : ClassFile} {c : Class} (h : ofClassFile file = .ok c) :
    c.Filed := by
  obtain ⟨hn, hs, hm, hf⟩ := ofClassFile_eq_ok_iff.mp h
  refine ⟨by rw [hf]; exact hn, by rw [hf]; exact hs, fun m hmem => ?_⟩
  obtain ⟨stored, -, hstored⟩ := exists_of_mem_right hm hmem
  rw [hf]
  exact Method.filed_of_ofMember hstored

/-- What is parsed is a class file that opens up. -/
theorem parse_eq_ok_iff {bytes : List UInt8} {c : Class} :
    parse bytes = .ok c ↔ ∃ file, ClassFile.parse bytes = .ok file ∧ ofClassFile file = .ok c :=
  bind_eq_ok_iff

/-- Whatever is parsed can be found in its pool. -/
theorem filed_of_parse {bytes : List UInt8} {c : Class} (h : parse bytes = .ok c) : c.Filed := by
  obtain ⟨file, -, hof⟩ := parse_eq_ok_iff.mp h
  exact filed_of_ofClassFile hof

/-- A class is serialized if it can be stored and the class file has bytes. -/
theorem serialize_eq_ok_iff {c : Class} {bytes : List UInt8} :
    c.serialize = .ok bytes ↔ ∃ file, c.toClassFile = .ok file ∧ file.toBytes = .ok bytes :=
  bind_eq_ok_iff

/-- Only the methods and the pool of a class file are made anew. -/
theorem toClassFile_eq_ok_iff {c : Class} {file : ClassFile} :
    c.toClassFile = .ok file ↔ ∃ members constants,
      (c.methods.mapM Method.toMember).run.run c.stored.constants = (.ok members, constants) ∧
        { c.stored with methods := members, constants := constants } = file := by
  unfold toClassFile
  split
  next e pool he =>
    refine ⟨nofun, ?_⟩
    rintro ⟨_, _, hr, -⟩
    cases he.symm.trans hr
  next members pool he =>
    rw [Except.ok.injEq]
    constructor
    · exact fun h => ⟨_, _, he, h⟩
    · rintro ⟨_, _, hr, rfl⟩
      cases he.symm.trans hr
      rfl

theorem toClassFile_eq_error_iff {c : Class} {e : ClassFileError} :
    c.toClassFile = .error e ↔ ∃ constants,
      (c.methods.mapM Method.toMember).run.run c.stored.constants = (.error e, constants) := by
  unfold toClassFile
  split
  next e' pool he =>
    rw [he]
    constructor
    · intro h
      cases h
      exact ⟨pool, rfl⟩
    · rintro ⟨_, h⟩
      cases h
      rfl
  next members pool he =>
    refine ⟨nofun, ?_⟩
    rintro ⟨_, hr⟩
    cases he.symm.trans hr

/-- The attributes that storing a class makes are short enough to be written. -/
def BodiesFit (c : Class) : Prop :=
  ∀ file ∈ c.toClassFile.toOption, file.Fits

instance (c : Class) : Decidable c.BodiesFit :=
  inferInstanceAs (Decidable (∀ _ ∈ _, _))

/-- What a class opens up to once it is stored as a class file. -/
def reopened (c : Class) (file : ClassFile) : Class :=
  ⟨c.name, c.superName, c.methods.map Method.raised, { file with methods := [] }⟩

private theorem settles_methods (c : Class) :
    Settles (c.methods.mapM Method.toMember) fun pool members =>
      List.Forall₂ (fun m stored => m.StoredAs pool stored) c.methods members :=
  .mapM fun m _ => m.settles_storedAs

/-- A class file opens up to the class that it was made from, with room for all local variables,
and its pool has grown from that of the class. -/
theorem ofClassFile_toClassFile {c : Class} {file : ClassFile} (hc : c.Filed) (hf : file.Fits)
    (h : c.toClassFile = .ok file) :
    c.stored.constants.Grows file.constants ∧ ofClassFile file = .ok (c.reopened file) := by
  obtain ⟨members, constants, hr, rfl⟩ := toClassFile_eq_ok_iff.mp h
  obtain ⟨hg, hs⟩ := c.settles_methods hr
  obtain ⟨hl, hm⟩ := List.forall₂_iff_get.mp (hs (.refl _)).2
  refine ⟨hg, ofClassFile_eq_ok_iff.mpr
    ⟨hg.binaryName hc.name, superNameAt_grows hg hc.superName, ?_, rfl⟩⟩
  refine List.forall₂_map_right_iff.mpr (List.forall₂_iff_get.mpr ⟨hl.symm, fun i hi hi' => ?_⟩)
  have hmember : members[i] ∈ members := List.getElem_mem hi
  have hmethod : c.methods[i] ∈ c.methods := List.getElem_mem hi'
  exact (hm i hi' hi).ofMember (hf.1 _ (List.mem_append_right _ hmember))
    ((hc.methods _ hmethod).grows hg)

/-- A class that was opened up from its own class file is stored as that class file again. -/
theorem toClassFile_reopened {c : Class} {file : ClassFile} (h : c.toClassFile = .ok file) :
    (c.reopened file).toClassFile = .ok file := by
  obtain ⟨members, constants, hr, rfl⟩ := toClassFile_eq_ok_iff.mp h
  obtain ⟨-, hs⟩ := c.settles_methods hr
  refine toClassFile_eq_ok_iff.mpr ⟨members, constants, ?_, rfl⟩
  have hraised : (c.methods.map Method.raised).mapM Method.toMember =
      c.methods.mapM Method.toMember := by
    rw [List.mapM_map]
    exact congrArg (List.mapM · c.methods) (funext Method.toMember_raised)
  -- The pool already has all names that the first time has added, so that nothing is added now.
  rw [reopened, hraised]
  exact (hs (.refl _)).1

/-- A class that can be stored has no body with more local variables than a table can count. -/
theorem length_locals_lt {c : Class} {file : ClassFile} (h : c.toClassFile = .ok file) :
    ∀ m ∈ c.methods, ∀ code ∈ m.code, code.locals.length < 65536 := by
  obtain ⟨members, constants, hr, rfl⟩ := toClassFile_eq_ok_iff.mp h
  obtain ⟨-, hs⟩ := c.settles_methods hr
  intro m hm
  obtain ⟨stored, -, hstored⟩ := exists_of_mem_left (hs (.refl _)).2 hm
  exact hstored.length_locals_lt

/-- What the bytes of a class are parsed as, before and after methods are opened up. -/
theorem parse_serialize {c : Class} {bytes : List UInt8} (hc : c.Filed) (hf : c.BodiesFit)
    (h : c.serialize = .ok bytes) :
    ∃ file, c.toClassFile = .ok file ∧ file.toBytes = .ok bytes ∧
      ClassFile.parse bytes = .ok file ∧ Class.parse bytes = .ok (c.reopened file) ∧
        c.stored.constants.Grows file.constants := by
  obtain ⟨file, hfile, hbytes⟩ := serialize_eq_ok_iff.mp h
  have hfits : file.Fits := hf file (by rw [hfile]; rfl)
  have hparse := ClassFile.parse_toBytes hfits hbytes
  obtain ⟨hg, hof⟩ := ofClassFile_toClassFile hc hfits hfile
  exact ⟨file, hfile, hbytes, hparse, parse_eq_ok_iff.mpr ⟨file, hparse, hof⟩, hg⟩

end Class

end MethodMetadata
