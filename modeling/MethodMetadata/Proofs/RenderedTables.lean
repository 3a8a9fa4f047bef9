import MethodMetadata.Proofs.ByteOrder
import MethodMetadata.Proofs.MappingTables

/-! The text of a mapping table tells nothing of how the table was made: it holds each key on one
line, in the order of the bytes of the keys. -/
namespace MethodMetadata.MappingTable

/-- A table when entries have been put into it one after the other. -/
def insertAll (table : MappingTable) (calls : List (String × MappingEntry)) : MappingTable :=
  calls.foldl (fun made call => made.insert call.1 call.2) table

/-- Of the entries that are put under a key the last one counts. -/
theorem get?_insertAll (table : MappingTable) (calls : List (String × MappingEntry))
    (key : String) : (table.insertAll calls).get? key =
      ((calls.reverse.find? (·.1 = key)).map (·.2)).or (table.get? key) := by
  induction calls generalizing table with
  | nil => rfl
  | cons call calls ih =>
    have hrest := ih (table.insert call.1 call.2)
    rw [get?_insert] at hrest
    refine hrest.trans ?_
    rw [List.reverse_cons, List.find?_append, Option.map_or, Option.or_assoc]
    by_cases hkey : call.1 = key <;> simp [hkey]

private theorem render_congr {table table' : MappingTable}
    (h : ∀ key, table'.get? key = table.get? key)
    (header : Option String) : table'.render header = table.render header := by
  have hentries : table'.entries = table.entries := Std.ExtTreeMap.ext_getElem? h
  unfold render toList
  rw [hentries]

/-- Entries are listed if each key of a table stands with its entry, in the order of the bytes. -/
structure Lists (table : MappingTable) (entries : List (String × MappingEntry)) : Prop where
  complete : ∀ key entry, (key, entry) ∈ entries ↔ table.get? key = some entry
  ordered : entries.Pairwise fun e e' => Utf8.bytes e.1 < Utf8.bytes e'.1

private theorem lists_toList (table : MappingTable) : table.Lists table.toList where
  complete _ _ := mem_toList_iff
  ordered := by
    refine Std.ExtTreeMap.ordered_keys_toList.imp fun h => ?_
    exact Utf8.bytes_lt_iff.mpr (compareOfLessAndEq_eq_lt.mp h)

/-- Entries can be arranged by their keys in one way only. -/
theorem Lists.eq_of_perm {table : MappingTable} {entries listed : List (String × MappingEntry)}
    (h : table.Lists entries) (hperm : listed.Perm entries)
    (hsorted : listed.Pairwise fun e e' => Utf8.bytes e.1 ≤ Utf8.bytes e'.1) :
    listed = entries := by
  refine List.Perm.eq_of_pairwise (fun e e' he he' hle hge => ?_) hsorted
    (h.ordered.imp List.le_of_lt) hperm
  have hkey : e.1 = e'.1 := Utf8.bytes_injective (List.le_antisymm hle hge)
  have hget := (h.complete e.1 e.2).mp (hperm.mem_iff.mp he)
  have hget' := (h.complete e'.1 e'.2).mp he'
  rw [← hkey, hget] at hget'
  exact Prod.ext hkey (Option.some.inj hget')

private theorem physicalLines_entries (entries : List (String × MappingEntry)) :
    Mapping.physicalLines (entries.flatMap renderEntry) =
      entries.map fun e => Mapping.entryLine e.1.toList e.2.text.toList := by
  have htext : entries.flatMap renderEntry =
      (entries.map fun e => Mapping.entryLine e.1.toList e.2.text.toList).flatMap (· ++ ['\n']) := by
    rw [List.flatMap_map]
    congr
    funext e
    simp [renderEntry, Mapping.entryLine]
  rw [htext]
  refine Mapping.physicalLines_flatMap (List.forall_mem_map.mpr fun e _ => ?_)
  exact Mapping.unbroken_entry e.1.toList e.2.text.toList

private theorem toList_render_eq (table : MappingTable) (header : Option String) :
    (table.render header).toList =
      (header.elim [] fun text => '#' :: (text.toList ++ ['\n'])) ++
        table.toList.flatMap renderEntry := by
  unfold render
  cases header <;> exact String.toList_ofList

/-- Tables in which the same keys stand for the same have one text, whatever was put into them in
which order. Behind the header it has one line for each key, in the order of the bytes of the keys,
in which the entries of the table can be arranged in one way only. -/
theorem render_insertAll (table : MappingTable) (calls : List (String × MappingEntry))
    (header : Option String) :
    let made := table.insertAll calls
    (∀ key, made.get? key =
      ((calls.reverse.find? (·.1 = key)).map (·.2)).or (table.get? key)) ∧
    (∀ table' calls', (∀ key, (insertAll table' calls').get? key = made.get? key) →
      (table'.insertAll calls').render header = made.render header) ∧
    ∃ entries, made.Lists entries ∧
      (∀ listed, listed.Perm entries →
        listed.Pairwise (fun e e' => Utf8.bytes e.1 ≤ Utf8.bytes e'.1) → listed = entries) ∧
      (made.render header).toList =
        (header.elim [] fun text => '#' :: (text.toList ++ ['\n'])) ++
          entries.flatMap renderEntry ∧
      Mapping.physicalLines (entries.flatMap renderEntry) =
        entries.map fun e => Mapping.entryLine e.1.toList e.2.text.toList := by
  intro made
  have hlists := made.lists_toList
  exact ⟨get?_insertAll table calls, fun _ _ h => render_congr h header, made.toList, hlists,
    fun _ => hlists.eq_of_perm, toList_render_eq made header, physicalLines_entries made.toList⟩

/-- Entries in two orders, one of them overwritten. Among the keys are one with a line break and one
beyond the basic plane. -/
theorem render_insertAll_twice :
    let calls : List (String × MappingEntry) :=
      [("\uffff", ⟨"", none⟩), ("a\nb", ⟨"e/E", some "x"⟩), ("😀", ⟨"", some ""⟩)]
    let calls' : List (String × MappingEntry) :=
      [("😀", ⟨"", some ""⟩), ("a\nb", ⟨"", none⟩), ("\uffff", ⟨"", none⟩),
        ("a\nb", ⟨"e/E", some "x"⟩)]
    (∀ key, (empty.insertAll calls').get? key = (empty.insertAll calls).get? key) ∧
      (empty.insertAll calls').render (some "x") = (empty.insertAll calls).render (some "x") ∧
      (empty.insertAll calls).render (some "x") =
        "#x\na\\nb=e/E|x\n\uffff=\n😀=|\n" := by
  intro calls calls'
  obtain ⟨-, hsame, -⟩ := render_insertAll empty calls (some "x")
  have hentries (key : String) :
      (empty.insertAll calls').get? key = (empty.insertAll calls).get? key := by
    simp only [calls, calls', insertAll, List.foldl_cons, List.foldl_nil, get?_insert, get?_empty]
    grind
  exact ⟨hentries, hsame empty calls' hentries, by decide +kernel⟩

end MethodMetadata.MappingTable
