import MethodMetadata.Mapping.Table
import MethodMetadata.Proofs.MappingLines
import MethodMetadata.Proofs.Numbers
import MethodMetadata.Proofs.Traversal

/-! Mapping tables that are written read back. Keys may be any texts, and so may exceptions and
parameters but for the bar between them. -/
namespace MethodMetadata

namespace MappingEntry

/-- An entry whose texts do not have the bar that is written between them. -/
structure Barless (entry : MappingEntry) : Prop where
  exceptions : '|' ∉ entry.exceptions.toList
  parameters : ∀ parameters ∈ entry.parameters, '|' ∉ parameters.toList

private theorem barless_of_parse {value : String} {entry : MappingEntry}
    (h : parse value = .ok entry) : entry.Barless := by
  have hpieces : ∀ piece ∈ splitOn '|' value.toList, '|' ∉ (String.ofList piece).toList := by
    intro piece hp
    rw [String.toList_ofList]
    exact not_mem_of_mem_splitOn hp
  unfold parse at h
  split at h
  next exceptions hs =>
    rw [hs] at hpieces
    cases h
    exact ⟨hpieces _ (by simp), nofun⟩
  next exceptions parameters hs =>
    rw [hs] at hpieces
    cases h
    refine ⟨hpieces _ (by simp), fun _ hp => ?_⟩
    cases hp
    exact hpieces _ (by simp)
  next => cases h

private theorem parse_text {entry : MappingEntry} (h : entry.Barless) :
    parse entry.text = .ok entry := by
  obtain ⟨exceptions, parameters⟩ := entry
  cases parameters with
  | none =>
    have hs : splitOn '|' exceptions.toList = [exceptions.toList] := by
      rw [splitOn_eq]
      exact List.splitOn_eq_singleton h.exceptions
    simp [parse, text, hs]
  | some parameters =>
    have hs : splitOn '|' (exceptions.toList ++ '|' :: parameters.toList) =
        [exceptions.toList, parameters.toList] := by
      rw [splitOn_eq, List.splitOn_append_cons_self_of_not_mem h.exceptions,
        List.splitOn_eq_singleton (h.parameters parameters rfl)]
    simp [parse, text, hs]

private theorem not_mem_of_splitOn_eq {separator : Char} {text piece : List Char}
    (h : text.splitOn separator = [piece]) : separator ∉ text := by
  have hmem : piece ∈ splitOn separator text := by
    rw [splitOn_eq, h]
    exact List.mem_singleton_self piece
  have hpiece := not_mem_of_mem_splitOn hmem
  have htext : [separator].intercalate (text.splitOn separator) = text :=
    List.intercalate_splitOn separator
  rw [h, List.intercalate_singleton] at htext
  exact htext ▸ hpiece

/-- With parameters the one bar there may be is the one that is written. -/
theorem barless_of_parse_text {entry other : MappingEntry} (hp : entry.parameters.isSome)
    (h : parse entry.text = .ok other) : entry.Barless := by
  obtain ⟨exceptions, _ | parameters⟩ := entry
  · cases hp
  · have htext : splitOn '|' (text ⟨exceptions, some parameters⟩).toList =
        exceptions.toList.splitOn '|' ++ parameters.toList.splitOn '|' := by
      simp [text, splitOn_eq, List.splitOn_append_cons_self]
    have hleft := List.splitOn_ne_nil '|' exceptions.toList
    have hright := List.splitOn_ne_nil '|' parameters.toList
    rw [parse, htext] at h
    generalize hl : exceptions.toList.splitOn '|' = left at h hleft
    generalize hr : parameters.toList.splitOn '|' = right at h hright
    match left, right with
    | [first], [second] =>
      exact ⟨not_mem_of_splitOn_eq hl, fun _ he => by cases he; exact not_mem_of_splitOn_eq hr⟩
    | [first], second :: third :: rest => cases h
    | [first, next], second :: rest => cases h
    | first :: next :: third :: more, second :: rest => cases h

end MappingEntry

namespace MappingTable

theorem get?_empty (key : String) : empty.get? key = none :=
  Std.ExtTreeMap.getElem?_empty

/-- An entry takes the place of any other with its key. -/
theorem get?_insert (table : MappingTable) (key other : String) (entry : MappingEntry) :
    (table.insert key entry).get? other = if key = other then some entry else table.get? other := by
  simp [get?, insert, Std.ExtTreeMap.getElem?_insert]

/-- A table lists the entries that it has under its keys. -/
theorem mem_toList_iff {table : MappingTable} {key : String} {entry : MappingEntry} :
    (key, entry) ∈ table.toList ↔ table.get? key = some entry :=
  Std.ExtTreeMap.mem_toList_iff_getElem?_eq_some

/-- A table of entries without bars. -/
def Barless (table : MappingTable) : Prop :=
  ∀ key, ∀ entry ∈ table.get? key, entry.Barless

theorem barless_empty : empty.Barless := by
  intro key entry h
  rw [get?_empty] at h
  cases h

private theorem Barless.insert {table : MappingTable} (h : table.Barless) (key : String)
    {entry : MappingEntry} (he : entry.Barless) : (table.insert key entry).Barless := by
  intro other found hf
  rw [get?_insert] at hf
  split at hf
  · cases hf
    exact he
  · exact h other found hf

theorem Barless.of_entries {table table' : MappingTable} (h : table.Barless)
    (he : table'.entries = table.entries) : table'.Barless := by
  intro key entry hk
  rw [get?, he] at hk
  exact h key entry hk

private theorem barless_addLine {table table' : MappingTable} {line : Nat × Mapping.Line}
    (h : table.Barless) (ha : table.addLine line = .ok table') : table'.Barless := by
  unfold addLine at ha
  split at ha
  · split at ha
    · cases ha
      exact h.of_entries rfl
    · cases ha
      exact h
  · split at ha
    next hp =>
      cases ha
      exact h.insert _ (MappingEntry.barless_of_parse hp)
    next => cases ha

/-- Whatever is read, no text of an entry has a bar. -/
theorem barless_of_parse {text : String} {table : MappingTable} (h : parse text = .ok table) :
    table.Barless := by
  rw [parse] at h
  obtain ⟨lines, -, h⟩ := bind_eq_ok_iff.mp h
  have hempty := barless_empty
  generalize empty = start at h hempty
  induction lines generalizing start with
  | nil =>
    cases h
    exact hempty
  | cons line lines ih =>
    rw [List.foldlM_cons] at h
    obtain ⟨next, ha, h⟩ := bind_eq_ok_iff.mp h
    exact ih next h (barless_addLine hempty ha)

/-! The lines of a table are those of its header and its entries. -/

private def headerLines (header : Option String) : List Mapping.Line :=
  header.toList.map fun text => .comment text.toList

private def entryLines (entries : List (String × MappingEntry)) : List Mapping.Line :=
  entries.map fun entry => .entry entry.1.toList entry.2.text.toList

private theorem toList_render (table : MappingTable) (header : Option String) :
    (table.render header).toList =
      (headerLines header ++ entryLines table.toList).flatMap fun line => line.text ++ ['\n'] := by
  have hentries : table.toList.flatMap renderEntry =
      (entryLines table.toList).flatMap fun line => line.text ++ ['\n'] := by
    rw [entryLines, List.flatMap_map]
    congr
    funext entry
    simp [renderEntry, Mapping.Line.text, Mapping.entryLine]
  cases header with
  | none => exact String.toList_ofList.trans hentries
  | some text =>
    refine String.toList_ofList.trans ?_
    rw [hentries]
    rfl

private theorem foldlM_addLine (entries : List (String × MappingEntry)) (number : Nat)
    (table : MappingTable) (h : ∀ entry ∈ entries, entry.2.Barless) :
    (((entryLines entries).zipIdx number).map Prod.swap).foldlM addLine table =
      .ok { table with
        entries := entries.foldl (fun made entry => made.insert entry.1 entry.2) table.entries } := by
  induction entries generalizing number table with
  | nil => rfl
  | cons entry entries ih =>
    obtain ⟨key, entry⟩ := entry
    have hadd : addLine table (number, .entry key.toList entry.text.toList) =
        .ok (table.insert key entry) := by
      simp [addLine, MappingEntry.parse_text (h _ List.mem_cons_self)]
    refine Eq.trans ?_ (ih (number + 1) (table.insert key entry)
      fun other ho => h other (List.mem_cons_of_mem _ ho))
    simp only [entryLines, List.map_cons, List.zipIdx_cons, List.foldlM_cons, Prod.swap_prod_mk,
      hadd]
    rfl

private theorem foldl_insert_toList (table : MappingTable) :
    table.toList.foldl (fun made entry => made.insert entry.1 entry.2) ∅ = table.entries := by
  have hlist : table.toList.foldl (fun made entry => made.insert entry.1 entry.2) ∅ =
      Std.ExtTreeMap.ofList table.entries.toList :=
    Std.ExtTreeMap.ofList_eq_foldl.symm
  rw [hlist]
  refine Std.ExtTreeMap.ext_getElem? fun key => ?_
  cases hk : table.entries[key]? with
  | some entry =>
    exact Std.ExtTreeMap.getElem?_ofList_of_mem (Std.compare_self)
      Std.ExtTreeMap.distinct_keys_toList (mem_toList_iff.mpr hk)
  | none =>
    refine Std.ExtTreeMap.getElem?_ofList_of_contains_eq_false ?_
    rw [Std.ExtTreeMap.map_fst_toList_eq_keys]
    simpa using hk

private theorem trimWhiteSpace_of_ends {text : List Char}
    (h : ∀ c ∈ text.head?, isWhiteSpace c = false)
    (h' : ∀ c ∈ text.getLast?, isWhiteSpace c = false) : trimWhiteSpace text = text := by
  have hkeep {text : List Char} (h : ∀ c ∈ text.head?, isWhiteSpace c = false) :
      text.dropWhile isWhiteSpace = text := by
    cases text with
    | nil => rfl
    | cons c text =>
      rw [List.dropWhile_cons, h c rfl]
      rfl
  rw [trimWhiteSpace, hkeep h, hkeep (List.head?_reverse ▸ h'), List.reverse_reverse]

private theorem isWhiteSpace_of_isDigit {c : Char} (h : c.isDigit = true) :
    isWhiteSpace c = false := by
  have hrange : 48 ≤ c.toNat ∧ c.toNat ≤ 57 := by
    simpa [Char.isDigit, UInt32.le_iff_toNat_le] using h
  simp [isWhiteSpace, whiteSpaceRanges]
  omega

private theorem toList_maxIndexHeader (index : UInt32) :
    (maxIndexHeader index).toList = maxIndexMark.toList ++ (toString index.toNat).toList :=
  String.toList_append

/-- The comment that records an index is read as one. -/
theorem recordedIndex?_maxIndexHeader (index : UInt32) :
    recordedIndex? (maxIndexHeader index).toList = some index := by
  have hdigits : ∀ c ∈ (toString index.toNat).toList, isWhiteSpace c = false := fun _ hc =>
    isWhiteSpace_of_isDigit (Number.isDigit_of_mem_toString hc)
  have hhead : ∀ c ∈ (maxIndexHeader index).toList.head?, isWhiteSpace c = false := by
    intro c hc
    rw [toList_maxIndexHeader] at hc
    cases hc
    decide
  have hlast : ∀ c ∈ (maxIndexHeader index).toList.getLast?, isWhiteSpace c = false := by
    intro c hc
    rw [toList_maxIndexHeader,
      List.getLast?_append_of_ne_nil _ (Number.toString_ne_nil index.toNat)] at hc
    exact hdigits c (List.mem_of_getLast? hc)
  have htrim : trimWhiteSpace (toString index.toNat).toList = (toString index.toNat).toList :=
    trimWhiteSpace_of_ends (fun c hc => hdigits c (List.mem_of_mem_head? hc))
      (fun c hc => hdigits c (List.mem_of_getLast? hc))
  rw [recordedIndex?, trimWhiteSpace_of_ends hhead hlast, toList_maxIndexHeader]
  simp only [List.drop_left, htrim, Number.uint32?_toString]
  simp

private theorem unbroken_header (index : UInt32) :
    Mapping.Unbroken (Mapping.Line.comment (maxIndexHeader index).toList).text := by
  refine Mapping.unbroken_of_forall fun c hc => ?_
  rw [Mapping.Line.text, toList_maxIndexHeader] at hc
  rcases List.mem_cons.mp hc with rfl | hc
  · decide
  · rcases List.mem_append.mp hc with hc | hc
    · have hfeed : '\n' ∉ maxIndexMark.toList := by decide
      have hreturn : '\r' ∉ maxIndexMark.toList := by decide
      exact ⟨fun he => hfeed (he ▸ hc), fun he => hreturn (he ▸ hc)⟩
    · have hdigit := Number.isDigit_of_mem_toString hc
      constructor <;> rintro rfl <;> cases hdigit

private theorem parse_render_eq (table : MappingTable) (index : Option UInt32) :
    ∃ number, parse (table.render (index.map maxIndexHeader)) =
      (((entryLines table.toList).zipIdx number).map Prod.swap).foldlM addLine ⟨∅, index⟩ := by
  have hunbroken : ∀ line ∈ headerLines (index.map maxIndexHeader) ++ entryLines table.toList,
      Mapping.Unbroken line.text := by
    intro line hl
    rcases List.mem_append.mp hl with hl | hl
    · cases index with
      | none => cases hl
      | some index =>
        obtain rfl := List.mem_singleton.mp hl
        exact unbroken_header index
    · obtain ⟨entry, -, rfl⟩ := List.mem_map.mp hl
      exact Mapping.unbroken_entry _ _
  rw [parse, toList_render, Mapping.readLines_texts hunbroken]
  cases index with
  | none => exact ⟨1, rfl⟩
  | some index =>
    have hheader : addLine empty (1, .comment (maxIndexHeader index).toList) =
        .ok ⟨∅, some index⟩ := by
      simp only [addLine, recordedIndex?_maxIndexHeader]
      rfl
    refine ⟨2, ?_⟩
    simp only [headerLines, bind, Except.bind, Option.map_some, Option.toList_some, List.map_cons,
      List.map_nil, List.singleton_append, List.zipIdx_cons, Prod.swap_prod_mk, List.foldlM_cons,
      hheader]

/-- What is written of a table without bars is read as its entries and the index. -/
theorem parse_render_of_barless {table : MappingTable} (h : table.Barless)
    (index : Option UInt32) :
    parse (table.render (index.map maxIndexHeader)) = .ok ⟨table.entries, index⟩ := by
  have hbarless : ∀ entry ∈ table.toList, entry.2.Barless := fun entry he =>
    h entry.1 entry.2 (mem_toList_iff.mp he)
  obtain ⟨number, hparse⟩ := parse_render_eq table index
  rw [hparse, foldlM_addLine _ _ _ hbarless, foldl_insert_toList]

/-- What is written can be read only if the values of all entries can. -/
theorem parse_text_of_parse_render {table table' : MappingTable} {index : Option UInt32}
    (h : parse (table.render (index.map maxIndexHeader)) = .ok table') :
    ∀ key, ∀ entry ∈ table.get? key, ∃ other, MappingEntry.parse entry.text = .ok other := by
  obtain ⟨number, hparse⟩ := parse_render_eq table index
  rw [hparse] at h
  clear hparse
  suffices hall : ∀ pair ∈ table.toList, ∃ other, MappingEntry.parse pair.2.text = .ok other from
    fun key entry he => hall (key, entry) (mem_toList_iff.mpr he)
  generalize (⟨∅, index⟩ : MappingTable) = start at h
  generalize table.toList = pairs at h ⊢
  induction pairs generalizing number start with
  | nil => exact nofun
  | cons pair pairs ih =>
    simp only [entryLines, List.map_cons, List.zipIdx_cons, List.foldlM_cons, Prod.swap_prod_mk]
      at h
    obtain ⟨next, hadd, hrest⟩ := bind_eq_ok_iff.mp h
    refine List.forall_mem_cons.mpr ⟨?_, ih (number + 1) next hrest⟩
    simp only [addLine, String.ofList_toList] at hadd
    split at hadd
    next other hp => exact ⟨other, hp⟩
    next => cases hadd

/-- A table, with or without an index, is read as it was written exactly if it is without bars;
every table that was read is. -/
theorem parse_render (table : MappingTable) (index : Option UInt32) :
    (parse (table.render (index.map maxIndexHeader)) = .ok ⟨table.entries, index⟩ ↔
        table.Barless) ∧
      ∀ text, parse text = .ok table →
        parse (table.render (index.map maxIndexHeader)) = .ok ⟨table.entries, index⟩ :=
  ⟨⟨fun h => (barless_of_parse h).of_entries rfl, fun h => parse_render_of_barless h index⟩,
    fun _ h => parse_render_of_barless (barless_of_parse h) index⟩

/-- A file with an empty key, keys of marks and blanks, and all kinds of parameters. -/
def oddFile : String :=
  "#max index=3\n=\n\\ \\#\\=\\\\=\\ b\\t,\\u0021|\n\\!\\:k : E|x,  y\r\n"

theorem parse_render_oddFile : ∃ table, parse oddFile = .ok table ∧ table.size = 3 ∧
    table.Barless ∧
      parse (table.render (some (maxIndexHeader 7))) = .ok ⟨table.entries, some 7⟩ := by
  have hread : (parse oddFile).toOption.any (·.size == 3) := by decide +kernel
  obtain ⟨table, ht, hsize⟩ := (Option.any_eq_true _ _).mp hread
  have hparse := toOption_eq_some_iff.mp ht
  have hagain := (parse_render table (some 7)).2 oddFile hparse
  exact ⟨table, hparse, beq_iff_eq.mp hsize, (parse_render table (some 7)).1.mp hagain, hagain⟩

end MappingTable

end MethodMetadata
