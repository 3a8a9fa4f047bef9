import Std.Data.ExtTreeMap
import MethodMetadata.Proofs.ConstantCodec
import MethodMetadata.Proofs.PoolHistories

/-! Pools that find texts and classes by tables of their first indices. The tables are not written,
but a scan of the pool makes them again, so that a pool which was read answers as the one that was
written. -/
namespace MethodMetadata

/-- The first indices of texts, and of classes by the index of their name. -/
structure NameTables where
  texts : Std.ExtTreeMap String UInt16
  classes : Std.ExtTreeMap UInt16 UInt16

namespace NameTables

def empty : NameTables := ⟨∅, ∅⟩

/-- Takes in a constant at an index, unless its text or class has one already. Bytes that are no
text are passed over. -/
def note (tables : NameTables) (entry : Nat × Constant) : NameTables :=
  let index := UInt16.ofNat entry.1
  match entry.2 with
  | .utf8 encoded =>
    match encoded.decoded with
    | .ok text => { tables with texts := tables.texts.insertIfNew text index }
    | .error _ => tables
  | .classRef name => { tables with classes := tables.classes.insertIfNew name index }
  | _ => tables

def scan (pool : ConstantPool) : NameTables :=
  pool.toList.foldl note empty

section
variable {α : Type} [DecidableEq α] [Ord α] [Std.TransOrd α] [Std.LawfulEqOrd α]

private theorem getElem?_insertIfNew (table : Std.ExtTreeMap α UInt16)
    (key other : α) (index : UInt16) :
    (table.insertIfNew key index)[other]? =
      table[other]?.or (if key = other then some index else none) := by
  rw [Std.ExtTreeMap.getElem?_insertIfNew]
  by_cases h : key = other
  · subst h
    cases hk : table[key]? <;> simp [Std.ExtTreeMap.mem_iff_isSome_getElem?, hk]
  · simp [h]

private theorem insertIfNew_eq_insert {table : Std.ExtTreeMap α UInt16} {key : α}
    (h : table[key]? = none) (index : UInt16) :
    table.insertIfNew key index = table.insert key index := by
  refine Std.ExtTreeMap.ext_getElem? fun other => ?_
  rw [getElem?_insertIfNew, Std.ExtTreeMap.getElem?_insert]
  by_cases hk : key = other
  · subst hk
    simp [h]
  · simp [hk]

end

private theorem texts_note (tables : NameTables) (entry : Nat × Constant) (text : String) :
    (tables.note entry).texts[text]? =
      tables.texts[text]?.or
        (if entry.2.spells text then some (UInt16.ofNat entry.1) else none) := by
  obtain ⟨index, c⟩ := entry
  cases c with
  | utf8 encoded =>
    cases hd : encoded.decoded with
    | ok found =>
      simp only [note, hd, getElem?_insertIfNew, Constant.spells, EncodedText.spells, beq_iff_eq]
    | error e => simp [note, hd, Constant.spells, EncodedText.spells]
  | _ => simp [note, Constant.spells]

private theorem classes_note (tables : NameTables) (entry : Nat × Constant) (name : UInt16) :
    (tables.note entry).classes[name]? = tables.classes[name]?.or
      (if entry.2.isClassNamed name then some (UInt16.ofNat entry.1) else none) := by
  obtain ⟨index, c⟩ := entry
  cases c with
  | utf8 encoded => cases hd : encoded.decoded <;> simp [note, hd, Constant.isClassNamed]
  | classRef found => simp only [note, getElem?_insertIfNew, Constant.isClassNamed, beq_iff_eq]
  | _ => simp [note, Constant.isClassNamed]

private theorem foldl_note (find : NameTables → Option UInt16) {f : Constant → Bool}
    (hnote : ∀ tables entry, find (tables.note entry) =
      (find tables).or (if f entry.2 then some (UInt16.ofNat entry.1) else none))
    (entries : List (Nat × Constant)) (tables : NameTables) :
    find (entries.foldl note tables) =
      (find tables).or ((entries.find? fun e => f e.2).map fun e => UInt16.ofNat e.1) := by
  induction entries generalizing tables with
  | nil => simp
  | cons entry entries ih =>
    rw [List.foldl_cons, ih, hnote, List.find?_cons]
    cases f entry.2 <;> simp

/-- A scan finds the first index of every text. -/
theorem texts_scan (pool : ConstantPool) (text : String) :
    (scan pool).texts[text]? = pool.index? (Constant.spells text) := by
  rw [scan, foldl_note (fun tables => tables.texts[text]?)
    (fun tables entry => texts_note tables entry text), ConstantPool.index?_eq]
  simp [empty]

/-- A scan finds the first index of every class. -/
theorem classes_scan (pool : ConstantPool) (name : UInt16) :
    (scan pool).classes[name]? = pool.index? (Constant.isClassNamed name) := by
  rw [scan, foldl_note (fun tables => tables.classes[name]?)
    (fun tables entry => classes_note tables entry name), ConstantPool.index?_eq]
  simp [empty]

private theorem scan_push (pool : ConstantPool) (c : Constant) (fits : pool.Fits c) :
    scan (pool.push c fits) = (scan pool).note (pool.constants.next, c) := by
  rw [scan, ConstantPool.toList_push, List.foldl_append]
  rfl

private theorem scan_push_text {pool : ConstantPool} {text : String}
    (fits : pool.Fits (.utf8 (.ofString text))) (h : (scan pool).texts[text]? = none) :
    scan (pool.push (.utf8 (.ofString text)) fits) =
      { scan pool with texts := (scan pool).texts.insert text pool.nextIndex } := by
  have hd : (EncodedText.ofString text).decoded = .ok text :=
    EncodedText.spells_iff.mp (EncodedText.ofString_spells text)
  rw [scan_push, ← insertIfNew_eq_insert h]
  simp only [note, hd]
  rfl

private theorem scan_push_class {pool : ConstantPool} {name : UInt16}
    (fits : pool.Fits (.classRef name)) (h : (scan pool).classes[name]? = none) :
    scan (pool.push (.classRef name) fits) =
      { scan pool with classes := (scan pool).classes.insert name pool.nextIndex } := by
  rw [scan_push, ← insertIfNew_eq_insert h]
  rfl

end NameTables

/-- A pool with the tables by which it finds texts and classes. -/
structure TabledPool where
  pool : ConstantPool
  tables : NameTables

namespace TabledPool

open ConstantPool Interning

def empty : TabledPool := ⟨.empty, .empty⟩

/-- A pool whose tables are those of a scan. -/
def ofPool (pool : ConstantPool) : TabledPool := ⟨pool, .scan pool⟩

def read (bytes : List UInt8) : Except Fault (TabledPool × List UInt8) := do
  let (pool, rest) ← ConstantPool.format.read bytes
  return (ofPool pool, rest)

/-- What a request comes to, and the pool that it leaves. -/
abbrev Answered := Except ClassFileError UInt16 × TabledPool

/-- Adds a constant that was not found, and enters its index into the tables. -/
def add (kept : TabledPool) (constant : Constant) (enter : UInt16 → NameTables) : Answered :=
  match (ConstantPool.add constant).run.run kept.pool with
  | (.ok index, pool) => (.ok index, ⟨pool, enter index⟩)
  | (.error e, pool) => (.error e, ⟨pool, kept.tables⟩)

def internText (kept : TabledPool) (text : String) : Answered :=
  match kept.tables.texts[text]? with
  | some index => (.ok index, kept)
  | none => kept.add (.utf8 (.ofString text)) fun index =>
      { kept.tables with texts := kept.tables.texts.insert text index }

def internClassNamed (kept : TabledPool) (name : UInt16) : Answered :=
  match kept.tables.classes[name]? with
  | some index => (.ok index, kept)
  | none => kept.add (.classRef name) fun index =>
      { kept.tables with classes := kept.tables.classes.insert name index }

def internClass (kept : TabledPool) (text : String) : Answered :=
  match kept.internText text with
  | (.ok name, kept) => kept.internClassNamed name
  | (.error e, kept) => (.error e, kept)

def request (kept : TabledPool) : Request → Answered
  | .ofText text => kept.internText text
  | .ofClass name => kept.internClass name

private theorem add_ofPool {pool : ConstantPool} {c : Constant} {enter : UInt16 → NameTables}
    (henter : ∀ fits : pool.Fits c, NameTables.scan (pool.push c fits) = enter pool.nextIndex) :
    (ofPool pool).add c enter = (((ConstantPool.add c).run.run pool).1,
      ofPool ((ConstantPool.add c).run.run pool).2) := by
  by_cases fits : pool.Fits c
  · have hadd : (ConstantPool.add c).run.run pool = (.ok pool.nextIndex, pool.push c fits) :=
      dif_pos fits
    simp only [add, ofPool, hadd, henter fits]
  · have hadd : (ConstantPool.add c).run.run pool =
        (.error (.poolOverflow ⟨c, pool.nextIndex⟩), pool) := dif_neg fits
    simp only [add, ofPool, hadd]

private theorem internText_ofPool (pool : ConstantPool) (text : String) :
    (ofPool pool).internText text = (((ConstantPool.internText text).run.run pool).1,
      ofPool ((ConstantPool.internText text).run.run pool).2) := by
  have hfind := NameTables.texts_scan pool text
  rw [internText, findsOrAdds_internText text pool, ofPool, hfind]
  cases hi : pool.index? (Constant.spells text) with
  | some index => rfl
  | none => exact add_ofPool fun fits => NameTables.scan_push_text fits (hfind.trans hi)

private theorem internClassNamed_ofPool (pool : ConstantPool) (name : UInt16) :
    (ofPool pool).internClassNamed name = (((ConstantPool.internClassNamed name).run.run pool).1,
      ofPool ((ConstantPool.internClassNamed name).run.run pool).2) := by
  have hfind := NameTables.classes_scan pool name
  rw [internClassNamed, findsOrAdds_internClassNamed name pool, ofPool, hfind]
  cases hi : pool.index? (Constant.isClassNamed name) with
  | some index => rfl
  | none => exact add_ofPool fun fits => NameTables.scan_push_class fits (hfind.trans hi)

private theorem internClass_ofPool (pool : ConstantPool) (text : String) :
    (ofPool pool).internClass text = (((ConstantPool.internClass text).run.run pool).1,
      ofPool ((ConstantPool.internClass text).run.run pool).2) := by
  rw [internClass, internText_ofPool]
  rcases hr : (ConstantPool.internText text).run.run pool with ⟨e | name, middle⟩
  · rw [ConstantPool.internClass, bind_run_of_error hr]
  · rw [ConstantPool.internClass, bind_run_of_ok hr]
    exact internClassNamed_ofPool middle name

/-- With the tables of a scan a request comes to the same as without tables, and they stay those of
a scan. -/
theorem request_ofPool (pool : ConstantPool) (request : Request) :
    (ofPool pool).request request =
      ((request.run.run.run pool).1, ofPool (request.run.run.run pool).2) := by
  cases request with
  | ofText text => exact internText_ofPool pool text
  | ofClass name => exact internClass_ofPool pool name

/-- The pools that come from an empty one, or from one that was read, by requests. -/
inductive Reached : TabledPool → Prop
  | empty : Reached .empty
  | read {bytes rest : List UInt8} {kept : TabledPool}
      (h : TabledPool.read bytes = .ok (kept, rest)) : Reached kept
  | request {kept : TabledPool} (h : Reached kept) (request : Request) :
    Reached (kept.request request).2

/-- The tables that grew along with a pool are those of a scan. -/
theorem Reached.eq_ofPool {kept : TabledPool} (h : kept.Reached) : kept = ofPool kept.pool := by
  induction h with
  | empty => rfl
  | read h =>
    obtain ⟨⟨pool, rest⟩, -, h⟩ := bind_eq_ok_iff.mp h
    obtain ⟨rfl, rfl⟩ := Prod.mk.inj (pure_eq_ok_iff.mp h)
    rfl
  | request h request ih =>
    rw [ih, request_ofPool]
    rfl

/-- The pool after requests, each of which may have failed. -/
def after (kept : TabledPool) (requests : List Request) : TabledPool :=
  requests.foldl (fun kept request => (kept.request request).2) kept

private theorem after_ofPool (pool : ConstantPool) (requests : List Request) :
    (ofPool pool).after requests = ofPool (pool.after requests) := by
  induction requests generalizing pool with
  | nil => rfl
  | cons request requests ih =>
    have hstep : (ofPool pool).after (request :: requests) =
        ((ofPool pool).request request).2.after requests := rfl
    rw [hstep, request_ofPool]
    exact ih _

private theorem request_ofPool_eq_iff {pool : ConstantPool} (request : Request)
    {result : Except ClassFileError UInt16} {grown : TabledPool} :
    (ofPool pool).request request = (result, grown) ↔
      ∃ left, request.run.run.run pool = (result, left) ∧ grown = ofPool left := by
  rw [request_ofPool]
  constructor
  · intro h
    obtain ⟨rfl, rfl⟩ := Prod.mk.inj h
    exact ⟨_, rfl, rfl⟩
  · rintro ⟨left, hr, rfl⟩
    rw [hr]

/-- A pool with tables starts empty or is read, and takes any requests. Its constants stay where they
are. A text is given its first index and a class one that names it, and later requests for them give
the same and change nothing, neither the pool nor its tables. A text is refused exactly if it is
nowhere and the last index has been given; that leaves all as it is, and the refusal of a class
leaves at most the text of its name. -/
theorem intern_reached {start : TabledPool} (h : start.Reached) (requests : List Request)
    (text : String) :
    let kept := start.after requests
    (1 ≤ kept.pool.constants.next ∧ kept.pool.constants.next ≤ 65535) ∧
      (∀ index c, start.pool.get index = .ok c → kept.pool.get index = .ok c) ∧
      (∀ index grown, kept.internText text = (.ok index, grown) →
        grown.pool.text index = .ok text ∧
          (∀ other, grown.pool.text other = .ok text → index ≤ other) ∧
          ∀ more, (grown.after more).internText text = (.ok index, grown.after more)) ∧
      (∀ index grown, kept.internClass text = (.ok index, grown) →
        grown.pool.className index = .ok text ∧
          ∀ more, (grown.after more).internClass text = (.ok index, grown.after more)) ∧
      (∀ e grown, kept.internText text = (.error e, grown) ↔
        (∀ index, kept.pool.text index ≠ .ok text) ∧ kept.pool.constants.next = 65535 ∧
          grown = kept ∧ e = .poolOverflow ⟨.utf8 (.ofString text), 65535⟩) ∧
      (∀ e grown, kept.internClass text = (.error e, grown) →
        grown = kept ∨ (∀ index, kept.pool.text index ≠ .ok text) ∧
          grown.pool.toList = kept.pool.toList ++
            [(kept.pool.constants.next, .utf8 (.ofString text))]) := by
  intro kept
  have hkept : kept = ofPool (start.pool.after requests) :=
    (congrArg (after · requests) h.eq_ofPool).trans (after_ofPool _ _)
  clear_value kept
  subst hkept
  obtain ⟨hnext, hget, htext, hclass, hrefused, hleft⟩ := intern_after start.pool requests text
  refine ⟨hnext, hget, fun index grown hgiven => ?_, fun index grown hgiven => ?_,
    fun e grown => ⟨fun hfails => ?_, fun ⟨hnone, hfull, hsame, he⟩ => ?_⟩,
    fun e grown hfails => ?_⟩
  · obtain ⟨left, hr, rfl⟩ := (request_ofPool_eq_iff (.ofText text)).mp hgiven
    obtain ⟨hread, hfirst, hagain⟩ := htext index left hr
    refine ⟨hread, hfirst, fun more => ?_⟩
    rw [after_ofPool]
    exact (request_ofPool_eq_iff (.ofText text)).mpr ⟨_, hagain more, rfl⟩
  · obtain ⟨left, hr, rfl⟩ := (request_ofPool_eq_iff (.ofClass text)).mp hgiven
    obtain ⟨hread, hagain⟩ := hclass index left hr
    refine ⟨hread, fun more => ?_⟩
    rw [after_ofPool]
    exact (request_ofPool_eq_iff (.ofClass text)).mpr ⟨_, hagain more, rfl⟩
  · obtain ⟨left, hr, rfl⟩ := (request_ofPool_eq_iff (.ofText text)).mp hfails
    obtain ⟨hnone, hfull, rfl, he⟩ := (hrefused e left).mp hr
    exact ⟨hnone, hfull, rfl, he⟩
  · exact (request_ofPool_eq_iff (.ofText text)).mpr
      ⟨_, (hrefused e _).mpr ⟨hnone, hfull, rfl, he⟩, hsame⟩
  · obtain ⟨left, hr, rfl⟩ := (request_ofPool_eq_iff (.ofClass text)).mp hfails
    exact (hleft e left hr).imp_left (congrArg ofPool)

/-- A pool with one text twice and a class that names the second of them. -/
def twinBytes : List UInt8 :=
  [0, 4, 1, 0, 1, 0x61, 1, 0, 1, 0x61, 7, 0, 2]

/-- The first of the two texts is the one that is given, and the class is not taken for the one that
is named by it. -/
theorem intern_reached_twins : ∃ start rest grown, read twinBytes = .ok (start, rest) ∧
    start.Reached ∧ start.pool.className 3 = .ok "a" ∧
    (start.after [.ofText "a", .ofText "b"]).internClass "a" = (.ok 5, grown) ∧
    grown.pool.className 5 = .ok "a" ∧
    (grown.after [.ofClass "b"]).internClass "a" = (.ok 5, grown.after [.ofClass "b"]) := by
  have hread : (read twinBytes).toOption.isSome := by decide +kernel
  have heval : ∀ taken ∈ (read twinBytes).toOption,
      (taken.1.pool.className 3).toOption = some "a" ∧
        ((taken.1.after [.ofText "a", .ofText "b"]).internClass "a").1.toOption = some 5 := by
    decide +kernel
  obtain ⟨⟨start, rest⟩, hread⟩ := isSome_toOption_iff.mp hread
  obtain ⟨hclass, hindex⟩ := heval _ (toOption_eq_some_iff.mpr hread)
  rcases hgiven : (start.after [.ofText "a", .ofText "b"]).internClass "a" with ⟨result, grown⟩
  rw [hgiven] at hindex
  obtain rfl := toOption_eq_some_iff.mp hindex
  have hreached : start.Reached := .read hread
  obtain ⟨-, -, -, hgives, -⟩ := intern_reached hreached [.ofText "a", .ofText "b"] "a"
  obtain ⟨hname, hagain⟩ := hgives 5 grown hgiven
  exact ⟨start, rest, grown, hread, hreached, toOption_eq_some_iff.mp hclass, hgiven, hname,
    hagain _⟩

end TabledPool

/-! What can be observed of a pool are its answers, and the tables do not show in them. -/

/-- What a pool can be asked. -/
inductive Query
  | request (request : ConstantPool.Request)
  | constant (index : UInt16)
  | text (index : UInt16)
  | className (index : UInt16)
  deriving DecidableEq, Repr

/-- What a pool answers. -/
inductive Answer
  | index (result : Except ClassFileError UInt16)
  | constant (result : Except ClassFileError Constant)
  | text (result : Except ClassFileError String)
  deriving DecidableEq

/-- A kind of state that holds a pool, with the way in which it takes requests. -/
structure PoolHolder (σ : Type) where
  pool : σ → ConstantPool
  request : σ → ConstantPool.Request → Except ClassFileError UInt16 × σ

namespace PoolHolder

variable {σ τ : Type}

/-- The answer to a query, and the state that it leaves. Only requests change it. -/
def answer (holder : PoolHolder σ) (state : σ) : Query → Answer × σ
  | .request request =>
    let (result, state) := holder.request state request
    (.index result, state)
  | .constant index => (.constant ((holder.pool state).get index), state)
  | .text index => (.text ((holder.pool state).text index), state)
  | .className index => (.text ((holder.pool state).className index), state)

def answers (holder : PoolHolder σ) : σ → List Query → List Answer
  | _, [] => []
  | state, query :: queries =>
    let (answer, state) := holder.answer state query
    answer :: holder.answers state queries

/-- States that hold the same pool and take requests alike give the same answers. -/
theorem answers_map {holder : PoolHolder σ} {holder' : PoolHolder τ} {f : σ → τ}
    (hpool : ∀ state, holder'.pool (f state) = holder.pool state)
    (hrequest : ∀ state request, holder'.request (f state) request =
      ((holder.request state request).1, f (holder.request state request).2))
    (state : σ) (queries : List Query) :
    holder'.answers (f state) queries = holder.answers state queries := by
  induction queries generalizing state with
  | nil => rfl
  | cons query queries ih =>
    have hanswer : holder'.answer (f state) query =
        ((holder.answer state query).1, f (holder.answer state query).2) := by
      cases query with
      | request request => simp only [answer, hrequest]
      | constant index => simp only [answer, hpool]
      | text index => simp only [answer, hpool]
      | className index => simp only [answer, hpool]
    simp only [answers, hanswer, ih]

end PoolHolder

def ConstantPool.holder : PoolHolder ConstantPool :=
  ⟨id, fun pool request => request.run.run.run pool⟩

def TabledPool.holder : PoolHolder TabledPool :=
  ⟨pool, request⟩

namespace TabledPool

private theorem answers_ofPool (pool : ConstantPool) (queries : List Query) :
    holder.answers (ofPool pool) queries = ConstantPool.holder.answers pool queries :=
  PoolHolder.answers_map (f := ofPool) (fun _ => rfl) request_ofPool pool queries

/-- Of a pool that was reached by requests, the tables do not show in any answer. It can be written
unless one of its texts is longer than two bytes can tell, and then it reads back, whatever follows
it, with the same constants at the same indices and the same answers from then on, although its
tables were not written. -/
theorem answers_read_back {kept : TabledPool} (h : kept.Reached) :
    (∀ queries, holder.answers kept queries = ConstantPool.holder.answers kept.pool queries) ∧
      (∀ e, ConstantPool.format.write kept.pool = .error e ↔ e = .textTooLong ∧
        ∃ index text, kept.pool.get index = .ok (.utf8 text) ∧ 65535 < text.bytes.length) ∧
      ∀ bytes rest, ConstantPool.format.write kept.pool = .ok bytes →
        ∃ again, read (bytes ++ rest) = .ok (again, rest) ∧
          ConstantPool.format.read (bytes ++ rest) = .ok (again.pool, rest) ∧
          (∀ index, again.pool.get index = kept.pool.get index) ∧
          ∀ queries, holder.answers again queries = holder.answers kept queries := by
  rw [h.eq_ofPool]
  refine ⟨answers_ofPool kept.pool, fun e => ConstantPool.write_eq_error_iff, ?_⟩
  intro bytes rest hw
  have hread := kept.pool.readsBack bytes rest hw
  refine ⟨ofPool kept.pool, ?_, hread, fun index => rfl, fun queries => rfl⟩
  exact bind_eq_ok_iff.mpr ⟨_, hread, rfl⟩

/-- A pool that holds one text twice still finds the first of them after it was written, and its new
class too. -/
theorem answers_read_back_twins : ∃ start rest bytes again,
    read twinBytes = .ok (start, rest) ∧
      ConstantPool.format.write (start.request (.ofClass "a")).2.pool = .ok bytes ∧
      read (bytes ++ [0xca, 0xfe]) = .ok (again, [0xca, 0xfe]) ∧
      holder.answers again [.request (.ofText "a"), .request (.ofClass "a"), .className 4] =
        [.index (.ok 1), .index (.ok 4), .text (.ok "a")] := by
  have hread : (read twinBytes).toOption.isSome := by decide +kernel
  have heval : ∀ taken ∈ (read twinBytes).toOption,
      (ConstantPool.format.write (taken.1.request (.ofClass "a")).2.pool).toOption.isSome ∧
        holder.answers (taken.1.request (.ofClass "a")).2
            [.request (.ofText "a"), .request (.ofClass "a"), .className 4] =
          [.index (.ok 1), .index (.ok 4), .text (.ok "a")] := by
    decide +kernel
  obtain ⟨⟨start, rest⟩, hread⟩ := isSome_toOption_iff.mp hread
  obtain ⟨hwrite, hanswers⟩ := heval _ (toOption_eq_some_iff.mpr hread)
  obtain ⟨bytes, hwrite⟩ := isSome_toOption_iff.mp hwrite
  obtain ⟨-, -, hback⟩ := answers_read_back ((Reached.read hread).request (.ofClass "a"))
  obtain ⟨again, hagain, -, -, hsame⟩ := hback bytes [0xca, 0xfe] hwrite
  exact ⟨start, rest, bytes, again, hread, hwrite, hagain, (hsame _).trans hanswers⟩

end TabledPool

end MethodMetadata
