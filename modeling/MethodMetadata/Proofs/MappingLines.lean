import MethodMetadata.Proofs.MappingEscapes
import MethodMetadata.Proofs.Splitting

/-! Comments and entries that are written read back. Each takes one physical line, which does not go
on in the next one. -/
namespace MethodMetadata.Mapping

/-- What is written for a comment or an entry, without the end of the line. -/
def Line.text : Line → List Char
  | .comment text => '#' :: text
  | .entry key value => entryLine key value

/-- A text that stands on one physical line, all of it. -/
structure Unbroken (text : List Char) : Prop where
  no_feed : '\n' ∉ text
  no_return : text.getLast? ≠ some '\r'

theorem unbroken_of_forall {text : List Char} (h : ∀ x ∈ text, x ≠ '\n' ∧ x ≠ '\r') :
    Unbroken text :=
  ⟨fun hn => (h _ hn).1 rfl, fun hr => (h _ (List.mem_of_getLast? hr)).2 rfl⟩

theorem unbroken_entry (key value : List Char) : Unbroken (Line.entry key value).text :=
  unbroken_of_forall fun _ h => not_break_of_mem_entryLine h

/-- The end of every line is found, and nothing more is cut off. -/
theorem physicalLines_flatMap {texts : List (List Char)} (h : ∀ text ∈ texts, Unbroken text) :
    physicalLines (texts.flatMap (· ++ ['\n'])) = texts := by
  have hpieces : splitOn '\n' (texts.flatMap (· ++ ['\n'])) = texts ++ [[]] := by
    rw [splitOn_eq]
    induction texts with
    | nil => rfl
    | cons text texts ih =>
      rw [List.flatMap_cons, List.append_assoc, List.singleton_append,
        List.splitOn_append_cons_self_of_not_mem (h text List.mem_cons_self).no_feed,
        ih fun other ho => h other (List.mem_cons_of_mem _ ho)]
      rfl
  have hreturn : texts.map dropReturn = texts := by
    refine (List.map_congr_left fun text ht => ?_).trans (List.map_id texts)
    exact if_neg (h text ht).no_return
  simp only [physicalLines, hpieces, List.getLast?_concat, List.dropLast_concat, hreturn]
  exact List.append_nil texts

/-- What a physical line adds to the line it belongs to, unless it is empty or a comment. -/
theorem readLinesOnto_joined {pending : Option Pending} {raw : List Char}
    (h : pending = none → ∃ c text, raw.dropWhile isBlank = c :: text ∧ c ≠ '#' ∧ c ≠ '!')
    (read : List (Nat × Line)) (number : Nat) (rest : List (List Char)) :
    readLinesOnto read number pending (raw :: rest) =
      let start := (pending.map (·.start)).getD number
      let reversed := (raw.dropWhile isBlank).reverse ++ (pending.map (·.reversed)).getD []
      if continues reversed then
        readLinesOnto read (number + 1) (some ⟨start, reversed.tail⟩) rest
      else
        match readEntry reversed.reverse with
        | .error fault => .error ⟨start, fault⟩
        | .ok line => readLinesOnto ((start, line) :: read) (number + 1) none rest := by
  rw [readLinesOnto.eq_def]
  cases pending with
  | some held => rfl
  | none =>
    obtain ⟨c, text, ht, hhash, hbang⟩ := h rfl
    simp only [ht]
    split
    next => contradiction
    next he => cases he; contradiction
    next he => cases he; contradiction
    next => rfl

private theorem readLinesOnto_comment (read : List (Nat × Line)) (number : Nat)
    (text : List Char) (rest : List (List Char)) :
    readLinesOnto read number none (('#' :: text) :: rest) =
      readLinesOnto ((number, .comment text) :: read) (number + 1) none rest := by
  rw [readLinesOnto.eq_def]
  rfl

private theorem readLinesOnto_entry (read : List (Nat × Line)) (number : Nat)
    (key value : List Char) (rest : List (List Char)) :
    readLinesOnto read number none (entryLine key value :: rest) =
      readLinesOnto ((number, .entry key value) :: read) (number + 1) none rest := by
  obtain ⟨c, tail, hline, hblank, hhash, hbang⟩ := head_entryLine key value
  have hstart : (entryLine key value).dropWhile isBlank = entryLine key value := by
    rw [hline, List.dropWhile_cons, hblank]
    rfl
  rw [readLinesOnto_joined fun _ => ⟨c, tail, hstart.trans hline, hhash, hbang⟩]
  simp only [hstart, Option.map_none, Option.getD_none, List.append_nil, List.reverse_reverse,
    continues_entryLine, readEntry_entryLine]
  rfl

private theorem readLinesOnto_texts (read : List (Nat × Line)) (number : Nat)
    (lines : List Line) :
    readLinesOnto read number none (lines.map Line.text) =
      .ok (read.reverse ++ (lines.zipIdx number).map Prod.swap) := by
  induction lines generalizing read number with
  | nil => exact congrArg Except.ok (List.append_nil _).symm
  | cons line lines ih =>
    have hline : readLinesOnto read number none (line.text :: lines.map Line.text) =
        readLinesOnto ((number, line) :: read) (number + 1) none (lines.map Line.text) := by
      cases line with
      | comment text => exact readLinesOnto_comment read number text _
      | entry key value => exact readLinesOnto_entry read number key value _
    rw [List.map_cons, hline, ih, List.reverse_cons, List.append_assoc]
    rfl

/-- Lines that are written, each with its end, are read with their numbers. -/
theorem readLines_texts {lines : List Line} (h : ∀ line ∈ lines, Unbroken line.text) :
    readLines (lines.flatMap fun line => line.text ++ ['\n']) =
      .ok ((lines.zipIdx 1).map Prod.swap) := by
  have hphysical : physicalLines (lines.flatMap fun line => line.text ++ ['\n']) =
      lines.map Line.text := by
    rw [← List.flatMap_map Line.text (· ++ ['\n'])]
    exact physicalLines_flatMap (List.forall_mem_map.mpr h)
  rw [readLines, hphysical, readLinesOnto_texts]
  rfl

end MethodMetadata.Mapping
