import MethodMetadata.Proofs.MappingAppend

/-! The layout of an entry says nothing. Its line may be spread over several physical lines and moved
in from their starts by blanks, and is read as the same entry. -/
namespace MethodMetadata.Mapping

/-- The end of a physical line. -/
inductive LineBreak
  | feed
  | returnFeed

def LineBreak.text : LineBreak → List Char
  | .feed => ['\n']
  | .returnFeed => ['\r', '\n']

/-- A piece of a line on a physical line, behind any blanks. -/
structure Row where
  blanks : List Char
  piece : List Char
  blank : ∀ c ∈ blanks, isBlank c = true

def Row.text (row : Row) : List Char :=
  row.blanks ++ row.piece

/-- A way to lay out a line. The rows in front of the last one go on, each in the next one, and the
last one may lack a line break. -/
structure Layout where
  rows : List (Row × LineBreak)
  last : Row
  ending : Option LineBreak

namespace Layout

def text (layout : Layout) : List Char :=
  layout.rows.flatMap (fun row => row.1.text ++ '\\' :: row.2.text) ++
    (layout.last.text ++ (layout.ending.map LineBreak.text).getD [])

def pieces (layout : Layout) : List (List Char) :=
  layout.rows.map (·.1.piece) ++ [layout.last.piece]

end Layout

/-- Pieces of a line. None of them ends within an escape, and blanks are in none where they would be
skipped, unless they start the line. -/
structure Cut (line : List Char) (pieces : List (List Char)) : Prop where
  joined : pieces.flatten = line
  paired : ∀ piece ∈ pieces, (piece.reverse.takeWhile (· = '\\')).length % 2 = 0
  unblank : ∀ piece ∈ pieces.tail, ∀ c ∈ piece.head?, isBlank c = false

/-! Rows are the physical lines of a text. -/

/-- A piece without line breaks that does not end within an escape. -/
private structure Whole (piece : List Char) : Prop where
  plain : ∀ c ∈ piece, c ≠ '\n' ∧ c ≠ '\r'
  paired : continues piece.reverse = false

private theorem Row.unbroken {row : Row} (h : Whole row.piece) : Unbroken row.text := by
  refine unbroken_of_forall fun c hc => ?_
  rcases List.mem_append.mp hc with hc | hc
  · exact not_break_of_isBlank (row.blank c hc)
  · exact h.plain c hc

private theorem Row.unbroken_slash {row : Row} (h : Whole row.piece) :
    Unbroken (row.text ++ ['\\']) where
  no_feed hc := (List.mem_append.mp hc).elim (Row.unbroken h).no_feed (by decide)
  no_return := by rw [List.getLast?_concat]; decide

private theorem physicalLines_break {line : List Char} (h : Unbroken line) (ending : LineBreak) :
    physicalLines (line ++ ending.text) = [line] := by
  cases ending with
  | feed =>
    have hlines : physicalLines ([line].flatMap (· ++ ['\n'])) = [line] :=
      physicalLines_flatMap fun text ht => List.mem_singleton.mp ht ▸ h
    rwa [List.flatMap_singleton] at hlines
  | returnFeed =>
    have hfeed : '\n' ∉ line ++ ['\r'] := by
      rw [List.mem_append, not_or]
      exact ⟨h.no_feed, by decide⟩
    have hpieces : splitOn '\n' (line ++ ['\r', '\n']) = [line ++ ['\r'], []] := by
      rw [splitOn_eq, List.append_cons, List.splitOn_append_cons_self_of_not_mem hfeed]
      rfl
    simp [physicalLines, LineBreak.text, hpieces, dropReturn]

private theorem physicalLines_break_append {line : List Char} (h : Unbroken line)
    (ending : LineBreak) (text : List Char) :
    physicalLines (line ++ ending.text ++ text) = line :: physicalLines text := by
  have hlast : (line ++ ending.text).getLast? = some '\n' := by
    cases ending <;> simp [LineBreak.text]
  rw [physicalLines_append (.inr hlast), physicalLines_break h]
  rfl

private theorem physicalLines_unended {line : List Char} (h : Unbroken line) :
    physicalLines line = if line = [] then [] else [line] := by
  have hpieces : splitOn '\n' line = [line] := by
    rw [splitOn_eq, List.splitOn_eq_singleton h.no_feed]
  simp [physicalLines, hpieces]

/-! What a row adds to the line that it belongs to. -/

private theorem Row.dropWhile_text (row : Row) :
    row.text.dropWhile isBlank = row.piece.dropWhile isBlank :=
  List.dropWhile_append_of_pos row.blank

private theorem Row.dropWhile_text_slash (row : Row) :
    (row.text ++ ['\\']).dropWhile isBlank = row.piece.dropWhile isBlank ++ ['\\'] := by
  rw [List.dropWhile_append, row.dropWhile_text]
  split
  next hempty =>
    rw [List.isEmpty_iff.mp hempty]
    rfl
  next => rfl

private theorem continues_slash {reversed : List Char} (h : continues reversed = false) :
    continues ('\\' :: reversed) = true := by
  simp only [continues, beq_eq_false_iff_ne, List.takeWhile_cons, decide_true, if_true,
    List.length_cons, beq_iff_eq] at h ⊢
  omega

private def heldText (held : Option Pending) : List Char :=
  (held.map (·.reversed)).getD []

private theorem continues_heldText_append {held : Option Pending} (hheld : Held held)
    {piece : List Char} (h : Whole piece) :
    continues ((piece.dropWhile isBlank).reverse ++ heldText held) = false := by
  have hbefore : continues (heldText held) = false := by
    cases held with
    | none => rfl
    | some pending => exact hheld pending rfl
  rw [continues_append hbefore, continues_dropWhile]
  exact h.paired

private theorem readLinesOnto_row {held : Option Pending} (hheld : Held held) {row : Row}
    (h : Whole row.piece)
    (hstart : held = none → ∀ c ∈ (row.piece.dropWhile isBlank).head?, c ≠ '#' ∧ c ≠ '!')
    (number : Nat) (rest : List (List Char)) :
    readLinesOnto [] number held ((row.text ++ ['\\']) :: rest) =
      readLinesOnto [] (number + 1) (some ⟨(held.map (·.start)).getD number,
        (row.piece.dropWhile isBlank).reverse ++ heldText held⟩) rest := by
  have hgoes : continues
      ('\\' :: ((row.piece.dropWhile isBlank).reverse ++ heldText held)) = true :=
    continues_slash (continues_heldText_append hheld h)
  rw [readLinesOnto_joined]
  · simp only [row.dropWhile_text_slash, List.reverse_append, List.reverse_cons, List.reverse_nil,
      List.nil_append, List.cons_append]
    exact if_pos hgoes
  · intro hnone
    rw [row.dropWhile_text_slash]
    cases hpiece : row.piece.dropWhile isBlank with
    | nil => exact ⟨'\\', [], rfl, by decide⟩
    | cons c tail => exact ⟨c, tail ++ ['\\'], rfl, hstart hnone c (hpiece ▸ rfl)⟩

private theorem readLinesOnto_last {held : Option Pending} (hheld : Held held) {row : Row}
    (h : Whole row.piece) {line : Line}
    (hstart : held = none → ∃ c tail,
      row.piece.dropWhile isBlank = c :: tail ∧ c ≠ '#' ∧ c ≠ '!')
    (hread : readEntry ((heldText held).reverse ++ row.piece.dropWhile isBlank) = .ok line)
    (number : Nat) :
    readLinesOnto [] number held [row.text] = .ok [((held.map (·.start)).getD number, line)] := by
  have hends := continues_heldText_append hheld h
  have hentry : readEntry ((row.piece.dropWhile isBlank).reverse ++ heldText held).reverse =
      .ok line := by
    rwa [List.reverse_append, List.reverse_reverse]
  rw [readLinesOnto_joined (row.dropWhile_text ▸ hstart)]
  unfold heldText at hends hentry
  simp only [row.dropWhile_text, hends, hentry, Bool.false_eq_true, if_false]
  rfl

private theorem readLinesOnto_ending {held : Option Pending} (hheld : Held held) {row : Row}
    (h : Whole row.piece) {line : Line}
    (hstart : held = none → ∃ c tail,
      row.piece.dropWhile isBlank = c :: tail ∧ c ≠ '#' ∧ c ≠ '!')
    (hread : readEntry ((heldText held).reverse ++ row.piece.dropWhile isBlank) = .ok line)
    (ending : Option LineBreak) (number : Nat) :
    readLinesOnto [] number held
        (physicalLines (row.text ++ (ending.map LineBreak.text).getD [])) =
      .ok [((held.map (·.start)).getD number, line)] := by
  have hlast := readLinesOnto_last hheld h hstart hread number
  cases ending with
  | some ending =>
    have hlines : physicalLines (row.text ++ ending.text) = [row.text] :=
      physicalLines_break (Row.unbroken h) ending
    exact (congrArg (readLinesOnto [] number held) hlines).trans hlast
  | none =>
    rw [Option.map_none, Option.getD_none, List.append_nil, physicalLines_unended (Row.unbroken h)]
    split
    next hempty =>
      have hnil : row.piece = [] := (List.append_eq_nil_iff.mp hempty).2
      rw [hnil, List.dropWhile_nil] at hread hstart
      cases held with
      | none =>
        obtain ⟨c, tail, hcons, -⟩ := hstart rfl
        cases hcons
      | some pending =>
        have hpending : readEntry pending.reversed.reverse = .ok line :=
          List.append_nil pending.reversed.reverse ▸ hread
        rw [readLinesOnto, hpending]
        rfl
    next => exact hlast

private theorem Layout.text_cons (row : Row) (ending : LineBreak) (rows : List (Row × LineBreak))
    (last : Row) (ending' : Option LineBreak) :
    (Layout.mk ((row, ending) :: rows) last ending').text =
      row.text ++ ['\\'] ++ ending.text ++ (Layout.mk rows last ending').text := by
  simp [Layout.text]

private theorem readLinesOnto_layout {line : Line} {last : Row} (hlast : Whole last.piece)
    (ending : Option LineBreak) (rows : List (Row × LineBreak))
    (hrows : ∀ row ∈ rows, Whole row.1.piece) {held : Option Pending} (hheld : Held held)
    (hstart : held = none → ∃ c tail,
      (Layout.mk rows last ending).pieces.flatMap (·.dropWhile isBlank) = c :: tail ∧
        c ≠ '#' ∧ c ≠ '!')
    (hread : readEntry ((heldText held).reverse ++
      (Layout.mk rows last ending).pieces.flatMap (·.dropWhile isBlank)) = .ok line)
    (number : Nat) :
    readLinesOnto [] number held (physicalLines (Layout.mk rows last ending).text) =
      .ok [((held.map (·.start)).getD number, line)] := by
  induction rows generalizing held number with
  | nil =>
    have hpieces : (Layout.mk [] last ending).pieces.flatMap (·.dropWhile isBlank) =
        last.piece.dropWhile isBlank := List.flatMap_singleton _ _
    rw [hpieces] at hread hstart
    exact readLinesOnto_ending hheld hlast hstart hread ending number
  | cons row rows ih =>
    obtain ⟨row, broken⟩ := row
    have hrow : Whole row.piece := hrows _ List.mem_cons_self
    have hpieces : (Layout.mk ((row, broken) :: rows) last ending).pieces.flatMap
        (·.dropWhile isBlank) = row.piece.dropWhile isBlank ++
          (Layout.mk rows last ending).pieces.flatMap (·.dropWhile isBlank) := List.flatMap_cons
    rw [hpieces] at hread hstart
    have hfirst : held = none → ∀ c ∈ (row.piece.dropWhile isBlank).head?, c ≠ '#' ∧ c ≠ '!' := by
      intro hnone c hc
      obtain ⟨x, tail, hx, hmarks⟩ := hstart hnone
      obtain ⟨behind, hc⟩ := List.head?_eq_some_iff.mp hc
      rw [hc, List.cons_append] at hx
      exact (List.cons.inj hx).1 ▸ hmarks
    have hnext : Held (some ⟨(held.map (·.start)).getD number,
        (row.piece.dropWhile isBlank).reverse ++ heldText held⟩) := by
      rintro pending ⟨⟩
      exact continues_heldText_append hheld hrow
    rw [Layout.text_cons, physicalLines_break_append (Row.unbroken_slash hrow),
      readLinesOnto_row hheld hrow hfirst]
    refine ih (fun other ho => hrows other (List.mem_cons_of_mem _ ho)) hnext (fun hnone => ?_) ?_
      (number + 1)
    · cases hnone
    · simpa [heldText] using hread

/-! The pieces make up the line, and the line is that of an entry. -/

private theorem dropWhile_of_head {text : List Char} (h : ∀ c ∈ text.head?, isBlank c = false) :
    text.dropWhile isBlank = text := by
  cases text with
  | nil => rfl
  | cons c text =>
    rw [List.dropWhile_cons, h c rfl]
    rfl

private theorem Cut.flatMap_dropWhile {line : List Char} {pieces : List (List Char)}
    (h : Cut line pieces) : pieces.flatMap (·.dropWhile isBlank) = line.dropWhile isBlank := by
  -- Only the first piece of a line can lose blanks, and all that it loses starts the line.
  rw [← h.joined]
  have hunblank := h.unblank
  cases pieces with
  | nil => rfl
  | cons first rest =>
    have hkept : rest.flatMap (·.dropWhile isBlank) = rest.flatten := by
      rw [List.flatMap_def]
      refine congrArg List.flatten ((List.map_congr_left fun piece hp => ?_).trans (List.map_id _))
      exact dropWhile_of_head (hunblank piece hp)
    have hrest : rest.flatten.dropWhile isBlank = rest.flatten := by
      refine dropWhile_of_head fun c hc => ?_
      rw [List.head?_flatten] at hc
      obtain ⟨piece, hp, hc⟩ := List.exists_of_findSome?_eq_some hc
      exact hunblank piece hp c hc
    rw [List.flatMap_cons, hkept, List.flatten_cons, List.dropWhile_append]
    split
    next hempty => rw [List.isEmpty_iff.mp hempty, hrest, List.nil_append]
    next => rfl

private theorem Cut.whole {separator : Separator} {key value : List Char}
    {pieces : List (List Char)} (h : Cut (separator.line key value) pieces) {piece : List Char}
    (hp : piece ∈ pieces) : Whole piece where
  plain c hc := not_break_of_mem_line (h.joined ▸ List.mem_flatten_of_mem hp hc)
  paired := by
    rw [continues, h.paired piece hp]
    rfl

/-- However the line of an entry is laid out in a text, the entry is all that the text says. -/
theorem readLines_layout (separator : Separator) {key value : List Char} (layout : Layout)
    (h : Cut (separator.line key value) layout.pieces) :
    readLines layout.text = .ok [(1, .entry key value)] := by
  obtain ⟨separator', htrimmed, hstart⟩ := dropWhile_line separator key value
  have hjoined : layout.pieces.flatMap (·.dropWhile isBlank) = separator'.line key value :=
    h.flatMap_dropWhile.trans htrimmed
  have hlast : Whole layout.last.piece :=
    h.whole (List.mem_append_right _ List.mem_cons_self)
  have hrows : ∀ row ∈ layout.rows, Whole row.1.piece := fun row hr =>
    h.whole (List.mem_append_left _ (List.mem_map_of_mem hr))
  refine readLinesOnto_layout hlast layout.ending layout.rows hrows held_none (fun _ => ?_) ?_ 1
  · rw [hjoined]
    exact hstart
  · rw [hjoined]
    exact readEntry_line separator' key value

/-- A line cut in front of its separator, behind it, and between two escaped backslashes, with empty
pieces at both ends, breaks of both kinds, and none at the end. -/
theorem readLines_layout_pieces :
    let key := ['#', ' ', 'k']
    let value := [' ', '\\', '\\', ':', ' ', 'v']
    let separator : Separator :=
      ⟨[' ', '\t'], ':', ['\x0c'], List.all_eq_true.mp rfl, .inr rfl, List.all_eq_true.mp rfl⟩
    let layout : Layout :=
      { rows := [
          (⟨[' ', ' '], [], List.all_eq_true.mp rfl⟩, .returnFeed),
          (⟨[], ['\\', '#', '\\', ' ', 'k', ' ', '\t'], nofun⟩, .feed),
          (⟨['\t'], [':', '\x0c', '\\', ' '], List.all_eq_true.mp rfl⟩, .feed),
          (⟨[' ', '\x0c'], ['\\', '\\'], List.all_eq_true.mp rfl⟩, .returnFeed),
          (⟨[], ['\\', '\\', '\\', ':', ' ', 'v'], nofun⟩, .feed)]
        last := ⟨[], [], nofun⟩
        ending := none }
    Cut (separator.line key value) layout.pieces ∧
      layout.text =
        "  \\\r\n\\#\\ k \t\\\n\t:\x0c\\ \\\n \x0c\\\\\\\r\n\\\\\\: v\\\n".toList ∧
      readLines layout.text = .ok [(1, .entry key value)] := by
  intro key value separator layout
  have hcut : Cut (separator.line key value) layout.pieces :=
    ⟨by decide, by decide, by simp [layout, Layout.pieces, isBlank]⟩
  exact ⟨hcut, by decide, readLines_layout separator layout hcut⟩

end MethodMetadata.Mapping
