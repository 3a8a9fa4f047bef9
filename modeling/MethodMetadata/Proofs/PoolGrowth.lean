import MethodMetadata.ClassFile.ConstantPool
import MethodMetadata.Proofs.ModifiedUtf8
import MethodMetadata.Proofs.Names
import MethodMetadata.Proofs.OffsetVector
import MethodMetadata.Proofs.Traversal

/-! A pool that grows by names keeps all that was found in it. Constants stay at their indices,
and the first constant of a kind stays the first one. -/
namespace MethodMetadata

theorem EncodedText.spells_iff {encoded : EncodedText} {text : String} :
    encoded.spells text = true ↔ encoded.decoded = .ok text := by
  unfold EncodedText.spells
  split <;> simp_all

theorem EncodedText.ofString_spells (text : String) : (EncodedText.ofString text).spells text := by
  rw [spells_iff]
  exact ModifiedUtf8.decode_encode text

/-- The constants that names are made of, which are the ones that are added to a pool. -/
def Constant.IsName : Constant → Prop
  | .utf8 _ | .classRef _ => True
  | _ => False

theorem Constant.one_le_width (c : Constant) : 1 ≤ c.width := by
  cases c <;> simp [width]

namespace ConstantPool

def toList (pool : ConstantPool) : List (Nat × Constant) :=
  pool.constants.entries.toList

theorem spaced (pool : ConstantPool) : pool.constants.Spaced :=
  fun e _ => e.2.one_le_width

/-- The next index is a number of two bytes. -/
theorem nextIndex_toNat (pool : ConstantPool) : pool.nextIndex.toNat = pool.constants.next := by
  have := pool.next_le
  rw [nextIndex, UInt16.toNat_ofNat', Nat.mod_eq_of_lt (by omega)]

/-- A pool is told by its constants and their indices. -/
theorem ext_toList {p q : ConstantPool} (h : p.toList = q.toList) : p = q := by
  have he := OffsetVector.ext_entries (p.start_eq.trans q.start_eq.symm) (Array.ext' h)
  cases p
  cases q
  cases he
  rfl

/-- A constant that is pushed lies behind all others, at the next index. -/
theorem toList_push (pool : ConstantPool) (c : Constant) (fits : pool.Fits c) :
    (pool.push c fits).toList = pool.toList ++ [(pool.constants.next, c)] :=
  Array.toList_push

private theorem index_bounds {pool : ConstantPool} {e : Nat × Constant} (h : e ∈ pool.toList) :
    1 ≤ e.1 ∧ e.1 < 65536 := by
  have hb := pool.constants.laidOut.mem_bounds h
  have := pool.start_eq
  have := pool.next_le
  omega

theorem index_toNat {pool : ConstantPool} {e : Nat × Constant} (h : e ∈ pool.toList) :
    (UInt16.ofNat e.1).toNat = e.1 := by
  rw [UInt16.toNat_ofNat', Nat.mod_eq_of_lt (index_bounds h).2]

/-- An index leads to the constant that is listed with it, and to no other. -/
theorem get_eq_ok_iff {pool : ConstantPool} {index : UInt16} {c : Constant} :
    pool.get index = .ok c ↔ (index.toNat, c) ∈ pool.toList := by
  rw [toList, ← pool.spaced.get?_eq_some_iff, get]
  cases pool.constants.get? index.toNat <;> simp

theorem text_eq_ok_iff {pool : ConstantPool} {index : UInt16} {text : String} :
    pool.text index = .ok text ↔ ∃ e, pool.get index = .ok (.utf8 e) ∧ e.decoded = .ok text := by
  unfold ConstantPool.text
  split
  next he => simp [he]
  next e he => simp [he, mapError_eq_ok_iff]
  next he hn => simp_all

theorem className_eq_ok_iff {pool : ConstantPool} {index : UInt16} {text : String} :
    pool.className index = .ok text ↔
      ∃ name, pool.get index = .ok (.classRef name) ∧ pool.text name = .ok text := by
  unfold className
  split
  next he => simp [he]
  next e he => simp [he]
  next he hn => simp_all

theorem binaryName_eq_ok_iff {pool : ConstantPool} {index : UInt16} {name : BinaryName} :
    pool.binaryName index = .ok name ↔ pool.className index = .ok name.text := by
  simp only [binaryName, bind_eq_ok_iff, mapError_eq_ok_iff, BinaryName.ofString_eq_ok_iff]
  constructor
  · rintro ⟨text, ht, rfl⟩
    exact ht
  · exact fun h => ⟨_, h, rfl⟩

/-- A later pool holds the same constants at the same indices, and behind them further ones with a
property. -/
def GrowsBy (P : Constant → Prop) (earlier later : ConstantPool) : Prop :=
  ∃ added, later.toList = earlier.toList ++ added ∧ ∀ e ∈ added, P e.2

namespace GrowsBy

variable {P Q : Constant → Prop} {p q r : ConstantPool}

theorem refl (P : Constant → Prop) (pool : ConstantPool) : GrowsBy P pool pool :=
  ⟨[], (List.append_nil _).symm, nofun⟩

theorem trans (hpq : GrowsBy P p q) (hqr : GrowsBy P q r) : GrowsBy P p r := by
  obtain ⟨a, ha, hna⟩ := hpq
  obtain ⟨b, hb, hnb⟩ := hqr
  refine ⟨a ++ b, by rw [hb, ha, List.append_assoc], fun e he => ?_⟩
  rcases List.mem_append.mp he with he | he
  · exact hna e he
  · exact hnb e he

theorem mono (h : GrowsBy P p q) (hPQ : ∀ c, P c → Q c) : GrowsBy Q p q := by
  obtain ⟨added, ha, hP⟩ := h
  exact ⟨added, ha, fun e he => hPQ e.2 (hP e he)⟩

/-- A pool cannot grow by constants that there are none of. -/
theorem eq_of_none (h : GrowsBy P p q) (hP : ∀ c, ¬P c) : q = p := by
  obtain ⟨added, ha, hadded⟩ := h
  obtain rfl := List.eq_nil_iff_forall_not_mem.mpr fun e he => hP e.2 (hadded e he)
  exact ext_toList (ha.trans (List.append_nil _))

end GrowsBy

theorem growsBy_push {P : Constant → Prop} (pool : ConstantPool) {c : Constant}
    (fits : pool.Fits c) (hc : P c) : GrowsBy P pool (pool.push c fits) :=
  ⟨_, toList_push pool c fits, fun e he => by rw [List.mem_singleton.mp he]; exact hc⟩

/-- A later pool holds the same constants at the same indices, and further names behind them. -/
def Grows (earlier later : ConstantPool) : Prop :=
  ∃ added, later.toList = earlier.toList ++ added ∧ ∀ e ∈ added, e.2.IsName

theorem Grows.refl (pool : ConstantPool) : pool.Grows pool :=
  GrowsBy.refl _ pool

theorem Grows.trans {p q r : ConstantPool} (hpq : p.Grows q) (hqr : q.Grows r) : p.Grows r :=
  GrowsBy.trans hpq hqr

theorem grows_push (pool : ConstantPool) {c : Constant} (fits : pool.Fits c) (hc : c.IsName) :
    pool.Grows (pool.push c fits) :=
  growsBy_push pool fits hc

namespace Grows

variable {p q : ConstantPool}

/-- Growing keeps every constant at its index. -/
theorem get (h : p.Grows q) {index : UInt16} {c : Constant} (hc : p.get index = .ok c) :
    q.get index = .ok c := by
  obtain ⟨added, ha, -⟩ := h
  rw [get_eq_ok_iff] at hc ⊢
  rw [ha]
  exact List.mem_append_left _ hc

theorem text (h : p.Grows q) {index : UInt16} {text : String} (ht : p.text index = .ok text) :
    q.text index = .ok text := by
  obtain ⟨e, he, hd⟩ := text_eq_ok_iff.mp ht
  exact text_eq_ok_iff.mpr ⟨e, h.get he, hd⟩

theorem className (h : p.Grows q) {index : UInt16} {text : String}
    (ht : p.className index = .ok text) : q.className index = .ok text := by
  obtain ⟨name, hn, ht⟩ := className_eq_ok_iff.mp ht
  exact className_eq_ok_iff.mpr ⟨name, h.get hn, h.text ht⟩

theorem binaryName (h : p.Grows q) {index : UInt16} {name : BinaryName}
    (hn : p.binaryName index = .ok name) : q.binaryName index = .ok name :=
  binaryName_eq_ok_iff.mpr (h.className (binaryName_eq_ok_iff.mp hn))

end Grows

/-! The first constant with a property, by which interning finds what is there. -/

def index? (pool : ConstantPool) (f : Constant → Bool) : Option UInt16 :=
  (pool.constants.find? f).map UInt16.ofNat

theorem index?_eq (pool : ConstantPool) (f : Constant → Bool) :
    pool.index? f = (pool.toList.find? fun e => f e.2).map fun e => UInt16.ofNat e.1 := by
  rw [index?, OffsetVector.find?, ← Array.find?_toList, Option.map_map]
  rfl

theorem get_of_index? {pool : ConstantPool} {f : Constant → Bool} {index : UInt16}
    (h : pool.index? f = some index) : ∃ c, pool.get index = .ok c ∧ f c = true := by
  rw [index?_eq] at h
  obtain ⟨e, he, rfl⟩ := Option.map_eq_some_iff.mp h
  have hm := List.mem_of_find?_eq_some he
  have hf := List.find?_some he
  refine ⟨e.2, get_eq_ok_iff.mpr ?_, hf⟩
  rw [index_toNat hm]
  exact hm

/-- Nothing is found if no constant has the property. -/
theorem index?_eq_none_iff {pool : ConstantPool} {f : Constant → Bool} :
    pool.index? f = none ↔ ∀ index c, pool.get index = .ok c → f c = false := by
  rw [index?_eq, Option.map_eq_none_iff, List.find?_eq_none]
  constructor
  · intro h index c hc
    exact Bool.eq_false_iff.mpr (h _ (get_eq_ok_iff.mp hc))
  · intro h e he hf
    have hget : pool.get (UInt16.ofNat e.1) = .ok e.2 := by
      rw [get_eq_ok_iff, index_toNat he]
      exact he
    exact Bool.noConfusion (hf.symm.trans (h _ _ hget))

/-- Constants lie in the order of their indices, so that the first one found is the one with the
smallest index. -/
theorem le_of_index? {pool : ConstantPool} {f : Constant → Bool} {index other : UInt16}
    {c : Constant} (h : pool.index? f = some index) (hg : pool.get other = .ok c)
    (hc : f c = true) : index ≤ other := by
  rw [index?_eq] at h
  obtain ⟨e, he, rfl⟩ := Option.map_eq_some_iff.mp h
  obtain ⟨-, before, behind, hlist, hbefore⟩ := List.find?_eq_some_iff_append.mp he
  have hsorted : pool.toList.Pairwise fun d e => d.1 < e.1 :=
    pool.constants.laidOut.pairwise_lt pool.spaced
  have hmem := get_eq_ok_iff.mp hg
  rw [UInt16.le_iff_toNat_le, index_toNat (List.mem_of_find?_eq_some he)]
  rw [hlist] at hmem hsorted
  rcases List.mem_append.mp hmem with hmem | hmem
  · have hnot := hbefore _ hmem
    rw [hc] at hnot
    cases hnot
  · rcases List.mem_cons.mp hmem with rfl | hmem
    · exact Nat.le_refl _
    · have hlater := (List.pairwise_cons.mp (List.pairwise_append.mp hsorted).2.1).1 _ hmem
      exact Nat.le_of_lt hlater

/-- Constants are added behind the first one that is found. -/
theorem Grows.index? {p q : ConstantPool} (h : p.Grows q) {f : Constant → Bool} {index : UInt16}
    (hi : p.index? f = some index) : q.index? f = some index := by
  obtain ⟨added, ha, -⟩ := h
  rw [index?_eq] at hi ⊢
  obtain ⟨e, he, rfl⟩ := Option.map_eq_some_iff.mp hi
  rw [ha, List.find?_append, he]
  rfl

/-- A constant that was missing is found where it is pushed. -/
theorem index?_push {pool : ConstantPool} {f : Constant → Bool} {c : Constant}
    (fits : pool.Fits c) (h : pool.index? f = none) (hc : f c = true) :
    (pool.push c fits).index? f = some pool.nextIndex := by
  rw [index?_eq] at h ⊢
  rw [toList_push, List.find?_append, Option.map_eq_none_iff.mp h]
  simp [hc, nextIndex]

end ConstantPool

end MethodMetadata
