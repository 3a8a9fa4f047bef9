import MethodMetadata.Proofs.MappingTables

/-! Mapping files one behind the other. Nothing is carried from a file that is complete into the
next one but the number of its lines, and later entries take the place of earlier ones. -/
namespace MethodMetadata

namespace Mapping

/-- A text that ends where a line does, which does not go on in the next one. -/
structure Complete (text : List Char) : Prop where
  ended : text = [] ∨ text.getLast? = some '\n'
  last : ∀ line ∈ (physicalLines text).getLast?,
    (line.reverse.takeWhile (· = '\\')).length % 2 = 0

/-- The physical lines of a text that ends where a line does are the first ones of any longer
text. -/
theorem physicalLines_append {first : List Char} (h : first = [] ∨ first.getLast? = some '\n')
    (second : List Char) :
    physicalLines (first ++ second) = physicalLines first ++ physicalLines second := by
  rcases h with rfl | h
  · rfl
  · obtain ⟨front, rfl⟩ := List.getLast?_eq_some_iff.mp h
    have hne : splitOn '\n' second ≠ [] := splitOn_eq '\n' second ▸ List.splitOn_ne_nil _ _
    have hfirst : splitOn '\n' (front ++ ['\n']) = splitOn '\n' front ++ [[]] := by
      rw [splitOn_eq, splitOn_eq, List.splitOn_append_cons_self]
      rfl
    have hboth : splitOn '\n' (front ++ ['\n'] ++ second) =
        splitOn '\n' front ++ splitOn '\n' second := by
      simp only [splitOn_eq, List.append_assoc, List.singleton_append,
        List.splitOn_append_cons_self]
    unfold physicalLines
    simp only [hfirst, hboth]
    rw [List.getLast?_append_of_ne_nil _ hne, List.dropLast_append_of_ne_nil hne,
      List.getLast?_concat, List.dropLast_concat, List.map_append, List.append_assoc]
    exact congrArg (· ++ _) (List.append_nil _).symm

/-! Whether a line goes on is decided by its last physical line. -/

theorem continues_append {held : List Char} (h : continues held = false) (text : List Char) :
    continues (text ++ held) = continues text := by
  simp only [continues, beq_eq_false_iff_ne] at h ⊢
  rw [List.takeWhile_append]
  split
  next hall =>
    rw [List.length_append, hall, Bool.eq_iff_iff, beq_iff_eq, beq_iff_eq]
    omega
  next => rfl

private theorem continues_tail {reversed : List Char} (h : continues reversed = true) :
    continues reversed.tail = false := by
  cases reversed with
  | nil => cases h
  | cons c rest =>
    simp only [continues, List.takeWhile_cons, beq_iff_eq, beq_eq_false_iff_ne] at h ⊢
    split at h
    · rw [List.length_cons] at h
      rw [List.tail_cons]
      omega
    · cases h

theorem continues_dropWhile (raw : List Char) :
    continues (raw.dropWhile isBlank).reverse = continues raw.reverse := by
  have hblank : continues (raw.takeWhile isBlank).reverse = false := by
    cases hr : (raw.takeWhile isBlank).reverse with
    | nil => rfl
    | cons c rest =>
      have hc : isBlank c = true :=
        List.all_eq_true.mp List.all_takeWhile c (List.mem_reverse.mp (hr ▸ List.mem_cons_self))
      have hne : c ≠ '\\' := by
        rintro rfl
        cases hc
      rw [continues, List.takeWhile_cons, if_neg (by simpa using hne)]
      rfl
  conv_rhs => rw [← List.takeWhile_append_dropWhile (p := isBlank) (l := raw), List.reverse_append]
  exact (continues_append hblank _).symm

/-! Lines that are read further down in a text differ in their numbers only. -/

def Error.shift (k : Nat) (e : Error) : Error :=
  ⟨e.line + k, e.fault⟩

def shiftLine (k : Nat) (line : Nat × Line) : Nat × Line :=
  (line.1 + k, line.2)

def Pending.shift (k : Nat) (held : Pending) : Pending :=
  ⟨held.start + k, held.reversed⟩

/-- A physical line has a fault, so many lines further down too. -/
def Fails (number : Nat) (pending : Option Pending) (raw : List Char) (e : Error) : Prop :=
  ∀ k read rest,
    readLinesOnto read (number + k) (pending.map (Pending.shift k)) (raw :: rest) =
      .error (e.shift k)

/-- A physical line adds lines and leaves one that goes on, so many lines further down too. -/
def Adds (number : Nat) (pending : Option Pending) (raw : List Char) (added : List (Nat × Line))
    (next : Option Pending) : Prop :=
  ∀ k read rest,
    readLinesOnto read (number + k) (pending.map (Pending.shift k)) (raw :: rest) =
      readLinesOnto (added.map (shiftLine k) ++ read) (number + 1 + k)
        (next.map (Pending.shift k)) rest

private theorem map_shift_zero (pending : Option Pending) :
    pending.map (Pending.shift 0) = pending := by
  cases pending <;> rfl

private theorem Fails.here {number : Nat} {pending : Option Pending} {raw : List Char} {e : Error}
    (h : Fails number pending raw e) (read : List (Nat × Line)) (rest : List (List Char)) :
    readLinesOnto read number pending (raw :: rest) = .error e := by
  have h0 := h 0 read rest
  rwa [map_shift_zero] at h0

private theorem Adds.here {number : Nat} {pending next : Option Pending} {raw : List Char}
    {added : List (Nat × Line)} (h : Adds number pending raw added next)
    (read : List (Nat × Line)) (rest : List (List Char)) :
    readLinesOnto read number pending (raw :: rest) =
      readLinesOnto (added ++ read) (number + 1) next rest := by
  have h0 := h 0 read rest
  have hadded : added.map (shiftLine 0) = added := List.map_id added
  rwa [map_shift_zero, map_shift_zero, hadded] at h0

/-- A line that goes on is held without the backslash that says so. -/
def Held (pending : Option Pending) : Prop :=
  ∀ held ∈ pending, continues held.reversed = false

theorem held_none : Held none :=
  nofun

private theorem fails_or_adds_joined {pending : Option Pending} {raw : List Char}
    (hheld : Held pending)
    (h : pending = none → ∃ c text, raw.dropWhile isBlank = c :: text ∧ c ≠ '#' ∧ c ≠ '!')
    (number : Nat) :
    (∃ e, Fails number pending raw e) ∨ ∃ added next, Adds number pending raw added next ∧
      Held next ∧ (continues raw.reverse = false → next = none) := by
  have hbefore : continues ((pending.map (·.reversed)).getD []) = false := by
    cases pending with
    | none => rfl
    | some held => exact hheld held rfl
  have hcontinues := continues_append hbefore (raw.dropWhile isBlank).reverse
  rw [continues_dropWhile] at hcontinues
  have hshift (k : Nat) := @readLinesOnto_joined (pending.map (Pending.shift k)) raw fun hn =>
    h (Option.map_eq_none_iff.mp hn)
  have hstart (k : Nat) : ((pending.map (Pending.shift k)).map (·.start)).getD (number + k) =
      (pending.map (·.start)).getD number + k := by
    cases pending <;> rfl
  have hreversed (k : Nat) : (pending.map (Pending.shift k)).map (·.reversed) =
      pending.map (·.reversed) := by
    cases pending <;> rfl
  simp only [hreversed] at hshift
  generalize (raw.dropWhile isBlank).reverse ++ (pending.map (·.reversed)).getD [] = reversed
    at hcontinues hshift
  cases hgoes : continues reversed with
  | true =>
    refine .inr ⟨[], some ⟨(pending.map (·.start)).getD number, reversed.tail⟩,
      fun k read rest => ?_, fun held hh => ?_, fun hraw => ?_⟩
    · rw [hshift, hgoes, hstart, Nat.add_right_comm]
      rfl
    · cases hh
      exact continues_tail hgoes
    · rw [← hcontinues, hgoes] at hraw
      cases hraw
  | false =>
    cases hread : readEntry reversed.reverse with
    | error fault =>
      refine .inl ⟨⟨(pending.map (·.start)).getD number, fault⟩, fun k read rest => ?_⟩
      simp only [hshift, hgoes, hread, hstart, Bool.false_eq_true, if_false]
      rfl
    | ok line =>
      refine .inr ⟨[((pending.map (·.start)).getD number, line)], none, fun k read rest => ?_,
        nofun, fun _ => rfl⟩
      simp only [hshift, hgoes, hread, hstart, Bool.false_eq_true, if_false]
      rw [Nat.add_right_comm]
      rfl

private theorem fails_or_adds {pending : Option Pending} (hheld : Held pending) (number : Nat)
    (raw : List Char) :
    (∃ e, Fails number pending raw e) ∨ ∃ added next, Adds number pending raw added next ∧
      Held next ∧ (continues raw.reverse = false → next = none) := by
  -- Only a backslash at its end makes a physical line go on.
  cases pending with
  | some held => exact fails_or_adds_joined hheld nofun number
  | none =>
    have hcomment {text : List Char}
        (hc : raw.dropWhile isBlank = '#' :: text ∨ raw.dropWhile isBlank = '!' :: text) :
        Adds number none raw [(number, .comment text)] none := by
      intro k read rest
      rw [Nat.add_right_comm, readLinesOnto.eq_def]
      rcases hc with hc | hc <;> simp only [Option.map_none, hc] <;> rfl
    cases ht : raw.dropWhile isBlank with
    | nil =>
      refine .inr ⟨[], none, fun k read rest => ?_, nofun, fun _ => rfl⟩
      rw [Nat.add_right_comm, readLinesOnto.eq_def]
      simp only [Option.map_none, ht, List.map_nil, List.nil_append]
    | cons c text =>
      by_cases hc : c = '#' ∨ c = '!'
      · have hmark : raw.dropWhile isBlank = '#' :: text ∨ raw.dropWhile isBlank = '!' :: text := by
          rcases hc with rfl | rfl
          exacts [.inl ht, .inr ht]
        exact .inr ⟨_, none, hcomment hmark, nofun, fun _ => rfl⟩
      · obtain ⟨hhash, hbang⟩ := not_or.mp hc
        exact fails_or_adds_joined hheld (fun _ => ⟨c, text, ht, hhash, hbang⟩) number

private theorem readLinesOnto_shift (k : Nat) {pending : Option Pending} (hheld : Held pending)
    (read earlier : List (Nat × Line)) (number : Nat) (raws : List (List Char)) :
    readLinesOnto (read.map (shiftLine k) ++ earlier) (number + k)
        (pending.map (Pending.shift k)) raws =
      ((readLinesOnto read number pending raws).mapError (Error.shift k)).map fun lines =>
        earlier.reverse ++ lines.map (shiftLine k) := by
  induction raws generalizing pending read number with
  | nil =>
    cases pending with
    | none =>
      simp only [Option.map_none, readLinesOnto, List.reverse_append, ← List.map_reverse]
      rfl
    | some held =>
      simp only [Option.map_some, readLinesOnto, Pending.shift]
      cases readEntry held.reversed.reverse with
      | error fault => rfl
      | ok line =>
        simp only [Except.mapError, bind, Except.bind, pure, Except.pure, Except.map,
          List.reverse_append, List.reverse_cons, List.map_append, List.append_assoc,
          ← List.map_reverse]
        rfl
  | cons raw raws ih =>
    rcases fails_or_adds hheld number raw with ⟨e, he⟩ | ⟨added, next, ha, hnext, -⟩
    · rw [he k, he.here]
      rfl
    · rw [ha k, ha.here, ← List.append_assoc, ← List.map_append]
      exact ih hnext (added ++ read) (number + 1)

private theorem readLinesOnto_append {pending : Option Pending} (hheld : Held pending)
    (read : List (Nat × Line)) (number : Nat) {first : List (List Char)}
    (second : List (List Char)) (hlast : ∀ raw ∈ first.getLast?, continues raw.reverse = false)
    (hstart : first = [] → pending = none) :
    readLinesOnto read number pending (first ++ second) =
      readLinesOnto read number pending first >>= fun lines =>
        readLinesOnto lines.reverse (number + first.length) none second := by
  induction first generalizing pending read number with
  | nil =>
    obtain rfl := hstart rfl
    rw [List.nil_append, readLinesOnto]
    exact (congrArg (readLinesOnto · number none second) (List.reverse_reverse read)).symm
  | cons raw first ih =>
    rcases fails_or_adds hheld number raw with ⟨e, he⟩ | ⟨added, next, ha, hnext, hends⟩
    · rw [List.cons_append, he.here, he.here]
      rfl
    · have hrest : ∀ other ∈ first.getLast?, continues other.reverse = false := by
        intro other ho
        refine hlast other ?_
        rw [List.getLast?_cons, Option.mem_def.mp ho]
        rfl
      have hseam : first = [] → next = none := by
        rintro rfl
        exact hends (hlast raw rfl)
      rw [List.cons_append, ha.here, ha.here, ih hnext _ _ hrest hseam, List.length_cons,
        Nat.add_assoc, Nat.add_comm 1]

/-- A text behind a complete one is read as it is on its own, with its lines further down. -/
theorem readLines_append {first : List Char} (h : Complete first) (second : List Char) :
    readLines (first ++ second) = do
      let lines ← readLines first
      let more ← (readLines second).mapError (Error.shift (physicalLines first).length)
      return lines ++ more.map (shiftLine (physicalLines first).length) := by
  have hlast : ∀ raw ∈ (physicalLines first).getLast?, continues raw.reverse = false := by
    intro raw hr
    rw [continues, h.last raw hr]
    rfl
  rw [readLines, physicalLines_append h.ended,
    readLinesOnto_append held_none [] 1 _ hlast fun _ => rfl, readLines]
  refine congrArg _ (funext fun lines => ?_)
  have hshift := readLinesOnto_shift (physicalLines first).length held_none [] lines.reverse 1
    (physicalLines second)
  rw [List.reverse_reverse] at hshift
  refine hshift.trans ?_
  rw [readLines]
  cases readLinesOnto [] 1 none (physicalLines second) <;> rfl

end Mapping

namespace MappingTable

/-- A table has the entries and the index of an earlier one, unless a later one has others. -/
structure Overrides (later earlier table : MappingTable) : Prop where
  entries : ∀ key, table.get? key = (later.get? key).or (earlier.get? key)
  maxIndex : table.maxIndex = later.maxIndex.or earlier.maxIndex

private theorem overrides_empty (earlier : MappingTable) : Overrides empty earlier earlier :=
  ⟨fun key => by rw [get?_empty]; rfl, rfl⟩

private theorem Overrides.addLine {later later' earlier table : MappingTable} {number : Nat}
    {line : Mapping.Line} (h : Overrides later earlier table)
    (hl : later.addLine (number, line) = .ok later') (number' : Nat) :
    ∃ table', table.addLine (number', line) = .ok table' ∧ Overrides later' earlier table' := by
  unfold MappingTable.addLine at hl ⊢
  cases line with
  | comment text =>
    cases hr : recordedIndex? text with
    | some index =>
      simp only [hr] at hl ⊢
      cases hl
      exact ⟨_, rfl, h.entries, rfl⟩
    | none =>
      simp only [hr] at hl ⊢
      cases hl
      exact ⟨_, rfl, h⟩
  | entry key value =>
    cases hp : MappingEntry.parse (String.ofList value) with
    | error fault =>
      simp only [hp] at hl
      cases hl
    | ok entry =>
      simp only [hp] at hl ⊢
      cases hl
      refine ⟨_, rfl, fun other => ?_, h.maxIndex⟩
      rw [get?_insert, get?_insert, h.entries]
      split <;> rfl

private theorem Overrides.addLines {later later' earlier table : MappingTable}
    {lines : List (Nat × Mapping.Line)} (h : Overrides later earlier table)
    (hl : lines.foldlM MappingTable.addLine later = .ok later') (k : Nat) :
    ∃ table', (lines.map (Mapping.shiftLine k)).foldlM MappingTable.addLine table = .ok table' ∧
      Overrides later' earlier table' := by
  induction lines generalizing later table with
  | nil =>
    cases hl
    exact ⟨table, rfl, h⟩
  | cons line lines ih =>
    rw [List.foldlM_cons] at hl
    obtain ⟨next, hline, hrest⟩ := bind_eq_ok_iff.mp hl
    obtain ⟨made, hmade, hm⟩ := h.addLine hline (line.1 + k)
    obtain ⟨table', hall, ht⟩ := ih hm hrest
    exact ⟨table', bind_eq_ok_iff.mpr ⟨made, hmade, hall⟩, ht⟩

/-- A mapping file behind a complete one says what it says on its own, with its lines further down.
Its entries and its index take the place of those in front. -/
theorem parse_append {first : String} (h : Mapping.Complete first.toList) (second : String) :
    (Mapping.readLines (first ++ second).toList = do
      let lines ← Mapping.readLines first.toList
      let more ← (Mapping.readLines second.toList).mapError
        (Mapping.Error.shift (Mapping.physicalLines first.toList).length)
      return lines ++ more.map (Mapping.shiftLine (Mapping.physicalLines first.toList).length)) ∧
    ∀ earlier later, parse first = .ok earlier → parse second = .ok later →
      ∃ table, parse (first ++ second) = .ok table ∧
        (∀ key, table.get? key = (later.get? key).or (earlier.get? key)) ∧
        table.maxIndex = later.maxIndex.or earlier.maxIndex := by
  have hlines := Mapping.readLines_append h second.toList
  rw [← String.toList_append] at hlines
  refine ⟨hlines, fun earlier later he hl => ?_⟩
  obtain ⟨lines, hread, hearlier⟩ := bind_eq_ok_iff.mp he
  obtain ⟨more, hmore, hlater⟩ := bind_eq_ok_iff.mp hl
  obtain ⟨table, htable, ho⟩ := (overrides_empty earlier).addLines hlater
    (Mapping.physicalLines first.toList).length
  refine ⟨table, ?_, ho.entries, ho.maxIndex⟩
  rw [hread, hmore] at hlines
  rw [parse, hlines]
  refine bind_eq_ok_iff.mpr ⟨_, rfl, ?_⟩
  rw [List.foldlM_append]
  exact bind_eq_ok_iff.mpr ⟨earlier, hearlier, htable⟩

/-- A file whose lines go on, end in a carriage return, and end in two backslashes. -/
def completeFile : String :=
  "#max index=3\na=x,\\\n  y|\r\nb=\\\\\n"

theorem parse_append_completeFile : Mapping.Complete completeFile.toList ∧
    (∃ table, parse (completeFile ++ "!max index=9\na=z\\") = .ok table ∧
      table.get? "a" = some ⟨"z", none⟩ ∧ table.get? "b" = some ⟨"\\", none⟩ ∧
      table.maxIndex = some 9) ∧
    Mapping.readLines (completeFile ++ "\nlonely").toList = .error ⟨6, .missingSeparator⟩ := by
  have hcomplete : Mapping.Complete completeFile.toList :=
    ⟨by decide +kernel, by decide +kernel⟩
  have hearlier : (parse completeFile).toOption.any fun table =>
      table.get? "a" = some ⟨"x,y", some ""⟩ ∧ table.get? "b" = some ⟨"\\", none⟩ := by
    decide +kernel
  have hlater : (parse "!max index=9\na=z\\").toOption.any fun table =>
      table.get? "a" = some ⟨"z", none⟩ ∧ table.get? "b" = none ∧ table.maxIndex = some 9 := by
    decide +kernel
  obtain ⟨earlier, he, hb⟩ := (Option.any_eq_true _ _).mp hearlier
  obtain ⟨later, hl, hz⟩ := (Option.any_eq_true _ _).mp hlater
  obtain ⟨-, hb⟩ := of_decide_eq_true hb
  obtain ⟨hz, hnone, hindex⟩ := of_decide_eq_true hz
  obtain ⟨-, htables⟩ := parse_append hcomplete "!max index=9\na=z\\"
  obtain ⟨table, ht, hentries, hmax⟩ :=
    htables earlier later (toOption_eq_some_iff.mp he) (toOption_eq_some_iff.mp hl)
  refine ⟨hcomplete, ⟨table, ht, ?_, ?_, ?_⟩, ?_⟩
  · rw [hentries, hz]
    rfl
  · rw [hentries, hnone, hb]
    rfl
  · rw [hmax, hindex]
    rfl
  · rw [(parse_append hcomplete "\nlonely").1]
    decide +kernel

end MappingTable

end MethodMetadata
