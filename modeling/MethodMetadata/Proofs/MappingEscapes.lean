import MethodMetadata.Mapping.Line

/-! Escaped keys and values read back. An escape is a backslash and a letter, and no character that
stands unescaped has a meaning of its own where it stands. -/
namespace MethodMetadata.Mapping

private theorem escapeChar_shape (escapeSpace : Bool) (c : Char) :
    (∃ letter, escapeChar escapeSpace c = ['\\', letter] ∧ unescapeLetter letter = c ∧
      letter ≠ 'u' ∧ letter ≠ '\n' ∧ letter ≠ '\r') ∨
    (escapeChar escapeSpace c = [c] ∧ (escapeSpace = true → isBlank c = false) ∧
      ∀ special ∈ ['\\', '\n', '\r', '=', ':', '#', '!'], c ≠ special) := by
  unfold escapeChar
  split
  case h_10 =>
    cases escapeSpace with
    | false => exact .inr ⟨rfl, nofun, by simp⟩
    | true => exact .inl ⟨' ', rfl, rfl, by decide⟩
  case h_11 h1 h2 h3 h4 h5 h6 h7 h8 h9 hs =>
    have hblank : isBlank c = false := by
      simp only [isBlank, Bool.or_eq_false_iff, decide_eq_false_iff_not]
      exact ⟨⟨hs, h2⟩, h5⟩
    refine .inr ⟨rfl, fun _ => hblank, ?_⟩
    simp only [List.forall_mem_cons]
    exact ⟨h1, h3, h4, h6, h7, h8, h9, nofun⟩
  all_goals exact .inl ⟨_, rfl, rfl, by decide⟩

private theorem not_break_of_mem_escapeChar {escapeSpace : Bool} {c x : Char}
    (h : x ∈ escapeChar escapeSpace c) : x ≠ '\n' ∧ x ≠ '\r' := by
  rcases escapeChar_shape escapeSpace c with ⟨letter, he, -, -, hn, hr⟩ | ⟨he, -, hc⟩
  · rw [he] at h
    rcases List.mem_cons.mp h with rfl | h
    · decide
    · obtain rfl := List.mem_singleton.mp h
      exact ⟨hn, hr⟩
  · rw [he] at h
    obtain rfl := List.mem_singleton.mp h
    exact ⟨hc '\n' (by simp), hc '\r' (by simp)⟩

/-! Escapes are resolved one after the other. -/

private theorem unescapeOnto_escape (read : List Char) {letter : Char} (h : letter ≠ 'u')
    (rest : List Char) :
    unescapeOnto read ('\\' :: letter :: rest) =
      unescapeOnto (unescapeLetter letter :: read) rest := by
  rw [unescapeOnto.eq_def]
  split
  case h_6 hnot heq =>
    cases heq
    exact (hnot _ _ rfl rfl).elim
  all_goals simp_all

private theorem unescapeOnto_plain (read : List Char) {c : Char} (h : c ≠ '\\')
    (rest : List Char) : unescapeOnto read (c :: rest) = unescapeOnto (c :: read) rest := by
  rw [unescapeOnto.eq_def]
  split <;> simp_all

private theorem unescapeOnto_escapeChar (escapeSpace : Bool) (read : List Char) (c : Char)
    (rest : List Char) :
    unescapeOnto read (escapeChar escapeSpace c ++ rest) = unescapeOnto (c :: read) rest := by
  rcases escapeChar_shape escapeSpace c with ⟨letter, he, hl, hu, -⟩ | ⟨he, -, hc⟩
  · rw [he, ← hl]
    exact unescapeOnto_escape read hu rest
  · rw [he]
    exact unescapeOnto_plain read (hc '\\' (by simp)) rest

private theorem unescapeOnto_flatMap (escapeSpace : Bool) (read text : List Char) :
    unescapeOnto read (text.flatMap (escapeChar escapeSpace)) = .ok (read.reverse ++ text) := by
  induction text generalizing read with
  | nil => simp [unescapeOnto]
  | cons c text ih =>
    rw [List.flatMap_cons, unescapeOnto_escapeChar, ih, List.reverse_cons, List.append_assoc]
    rfl

private theorem unescape_escapeKey (text : List Char) : unescape (escapeKey text) = .ok text :=
  unescapeOnto_flatMap true [] text

private theorem unescape_escapeValue (text : List Char) :
    unescape (escapeValue text) = .ok text := by
  cases text with
  | nil => rfl
  | cons c text =>
    rw [unescape, escapeValue, unescapeOnto_escapeChar]
    exact unescapeOnto_flatMap false [c] text

/-! A line is cut behind its key. -/

private theorem splitEntryOnto?_escapeChar (key : List Char) (c : Char) (rest : List Char) :
    splitEntryOnto? key false (escapeChar true c ++ rest) =
      splitEntryOnto? ((escapeChar true c).reverse ++ key) false rest := by
  rcases escapeChar_shape true c with ⟨letter, he, -⟩ | ⟨he, hs, hc⟩
  · rw [he]
    rfl
  · rw [he]
    simp [splitEntryOnto?, hs rfl, hc '\\' (by simp), hc '=' (by simp), hc ':' (by simp)]

private theorem splitEntryOnto?_escapeKey (key text rest : List Char) :
    splitEntryOnto? key false (escapeKey text ++ rest) =
      splitEntryOnto? ((escapeKey text).reverse ++ key) false rest := by
  induction text generalizing key with
  | nil => rfl
  | cons c text ih =>
    have hcons : escapeKey (c :: text) = escapeChar true c ++ escapeKey text := List.flatMap_cons
    rw [hcons, List.append_assoc, splitEntryOnto?_escapeChar, ih, List.reverse_append,
      List.append_assoc]

private theorem head_escapeChar_not_blank (c : Char) (rest : List Char) :
    (escapeChar true c ++ rest).dropWhile isBlank = escapeChar true c ++ rest := by
  rcases escapeChar_shape true c with ⟨letter, he, -⟩ | ⟨he, hs, hc⟩
  · rw [he]
    rfl
  · rw [he, List.singleton_append, List.dropWhile_cons, hs rfl]
    rfl

private theorem dropWhile_escapeValue (value : List Char) :
    (escapeValue value).dropWhile isBlank = escapeValue value := by
  cases value with
  | nil => rfl
  | cons c value => exact head_escapeChar_not_blank c _

/-- What stands between a key and its value: a mark, and any blanks around it. -/
structure Separator where
  before : List Char
  mark : Char
  after : List Char
  blank_before : ∀ c ∈ before, isBlank c = true
  mark_eq : mark = '=' ∨ mark = ':'
  blank_after : ∀ c ∈ after, isBlank c = true

namespace Separator

def plain : Separator where
  before := []
  mark := '='
  after := []
  blank_before := nofun
  mark_eq := .inl rfl
  blank_after := nofun

/-- A line with a separator of its own, without its end. -/
def line (separator : Separator) (key value : List Char) : List Char :=
  escapeKey key ++ (separator.before ++ separator.mark :: (separator.after ++ escapeValue value))

private theorem mark_plain (separator : Separator) : isBlank separator.mark = false ∧
    ∀ special ∈ ['\\', '\n', '\r', '#', '!'], separator.mark ≠ special := by
  rcases separator.mark_eq with hmark | hmark
  · simp [hmark, isBlank]
  · simp [hmark, isBlank]

end Separator

def entryLine (key value : List Char) : List Char :=
  escapeKey key ++ '=' :: escapeValue value

private theorem valueOf?_separator (separator : Separator) (value : List Char) :
    valueOf? (separator.before ++ separator.mark :: (separator.after ++ escapeValue value)) =
      some (escapeValue value) := by
  have hvalue : (separator.after ++ escapeValue value).dropWhile isBlank = escapeValue value := by
    rw [List.dropWhile_append_of_pos separator.blank_after, dropWhile_escapeValue]
  rw [valueOf?, List.dropWhile_append_of_pos separator.blank_before]
  rcases separator.mark_eq with hmark | hmark
  · rw [hmark]
    exact congrArg some hvalue
  · rw [hmark]
    exact congrArg some hvalue

private theorem splitEntryOnto?_separator (separator : Separator) (key value : List Char) :
    splitEntryOnto? key false
        (separator.before ++ separator.mark :: (separator.after ++ escapeValue value)) =
      some (key.reverse, escapeValue value) := by
  have hvalue := valueOf?_separator separator value
  have hstop : ∃ c rest, separator.before ++
      separator.mark :: (separator.after ++ escapeValue value) = c :: rest ∧ c ≠ '\\' ∧
        (c = '=' ∨ c = ':' ∨ isBlank c = true) := by
    cases hb : separator.before with
    | nil =>
      exact ⟨_, _, rfl, separator.mark_plain.2 '\\' (by simp), separator.mark_eq.imp_right .inl⟩
    | cons c blanks =>
      have hc : isBlank c = true := separator.blank_before c (hb ▸ List.mem_cons_self)
      refine ⟨c, _, rfl, ?_, .inr (.inr hc)⟩
      rintro rfl
      cases hc
  obtain ⟨c, rest, htext, hslash, hc⟩ := hstop
  rw [htext] at hvalue ⊢
  have hcut : (decide (c = '=') || decide (c = ':') || isBlank c) = true := by
    simpa [or_assoc] using hc
  rw [splitEntryOnto?, if_neg Bool.false_ne_true, if_neg hslash, if_pos hcut, hvalue]
  rfl

private theorem splitEntry?_line (separator : Separator) (key value : List Char) :
    splitEntry? (separator.line key value) = some (escapeKey key, escapeValue value) := by
  unfold splitEntry?
  rw [Separator.line, splitEntryOnto?_escapeKey, List.append_nil, splitEntryOnto?_separator,
    List.reverse_reverse]

/-- The line of a key and a value says that the key has the value. -/
theorem readEntry_line (separator : Separator) (key value : List Char) :
    readEntry (separator.line key value) = .ok (.entry key value) := by
  rw [readEntry, splitEntry?_line]
  simp only [unescape_escapeKey, unescape_escapeValue]

/-- The line of a key and a value is read as both. -/
theorem readEntry_entryLine (key value : List Char) :
    readEntry (entryLine key value) = .ok (.entry key value) :=
  readEntry_line .plain key value

theorem not_break_of_isBlank {c : Char} (h : isBlank c = true) : c ≠ '\n' ∧ c ≠ '\r' := by
  constructor <;> rintro rfl <;> cases h

private theorem not_break_of_mem_escapeKey {key : List Char} {x : Char} (h : x ∈ escapeKey key) :
    x ≠ '\n' ∧ x ≠ '\r' := by
  obtain ⟨c, -, hx⟩ := List.mem_flatMap.mp h
  exact not_break_of_mem_escapeChar hx

private theorem not_break_of_mem_escapeValue {value : List Char} {x : Char}
    (h : x ∈ escapeValue value) : x ≠ '\n' ∧ x ≠ '\r' := by
  cases value with
  | nil => cases h
  | cons c value =>
    rcases List.mem_append.mp h with hx | h
    · exact not_break_of_mem_escapeChar hx
    · obtain ⟨c, -, hx⟩ := List.mem_flatMap.mp h
      exact not_break_of_mem_escapeChar hx

/-- No line break is left in a line of escaped text. -/
theorem not_break_of_mem_line {separator : Separator} {key value : List Char} {x : Char}
    (h : x ∈ separator.line key value) : x ≠ '\n' ∧ x ≠ '\r' := by
  simp only [Separator.line, List.mem_append, List.mem_cons] at h
  rcases h with hkey | hbefore | hmark | hafter | hvalue
  · exact not_break_of_mem_escapeKey hkey
  · exact not_break_of_isBlank (separator.blank_before x hbefore)
  · rw [hmark]
    exact ⟨separator.mark_plain.2 '\n' (by simp), separator.mark_plain.2 '\r' (by simp)⟩
  · exact not_break_of_isBlank (separator.blank_after x hafter)
  · exact not_break_of_mem_escapeValue hvalue

theorem not_break_of_mem_entryLine {key value : List Char} {x : Char}
    (h : x ∈ entryLine key value) : x ≠ '\n' ∧ x ≠ '\r' :=
  @not_break_of_mem_line .plain key value x h

private theorem head_escapeKey_cons (c : Char) (key rest : List Char) :
    ∃ x tail, escapeKey (c :: key) ++ rest = x :: tail ∧ isBlank x = false ∧ x ≠ '#' ∧ x ≠ '!' := by
  have hcons : escapeKey (c :: key) ++ rest = escapeChar true c ++ (escapeKey key ++ rest) := by
    rw [escapeKey, List.flatMap_cons, List.append_assoc]
    rfl
  rcases escapeChar_shape true c with ⟨letter, he, -⟩ | ⟨he, hs, hc⟩
  · exact ⟨'\\', _, by rw [hcons, he]; rfl, by decide⟩
  · exact ⟨c, _, by rw [hcons, he]; rfl, hs rfl, hc '#' (by simp), hc '!' (by simp)⟩

/-- The line of an entry is taken for one: no blank, and no mark of a comment, is in front of it. -/
theorem head_entryLine (key value : List Char) :
    ∃ c rest, entryLine key value = c :: rest ∧ isBlank c = false ∧ c ≠ '#' ∧ c ≠ '!' := by
  cases key with
  | nil => exact ⟨'=', _, rfl, by decide⟩
  | cons c key => exact head_escapeKey_cons c key _

/-- The blanks that a line may start with, those behind an empty key, can be left out. -/
theorem dropWhile_line (separator : Separator) (key value : List Char) :
    ∃ separator' : Separator, (separator.line key value).dropWhile isBlank =
      separator'.line key value ∧
        ∃ c rest, separator'.line key value = c :: rest ∧ c ≠ '#' ∧ c ≠ '!' := by
  cases key with
  | nil =>
    obtain ⟨hblank, hplain⟩ := separator.mark_plain
    refine ⟨{ separator with before := [], blank_before := nofun }, ?_, separator.mark, _, rfl,
      hplain '#' (by simp), hplain '!' (by simp)⟩
    refine (List.dropWhile_append_of_pos separator.blank_before).trans ?_
    rw [List.dropWhile_cons, hblank]
    rfl
  | cons c key =>
    obtain ⟨x, tail, hline, hblank, hx⟩ := head_escapeKey_cons c key
      (separator.before ++ separator.mark :: (separator.after ++ escapeValue value))
    refine ⟨separator, ?_, x, tail, hline, hx⟩
    rw [Separator.line, hline, List.dropWhile_cons, hblank]
    rfl

/-! Backslashes at the end of a line come in pairs, so that no line goes on in the next one. -/

private theorem continues_escapeChar (escapeSpace : Bool) (c : Char) {reversed : List Char}
    (h : continues reversed = false) :
    continues ((escapeChar escapeSpace c).reverse ++ reversed) = false := by
  rcases escapeChar_shape escapeSpace c with ⟨letter, he, -⟩ | ⟨he, -, hc⟩
  · rw [he]
    by_cases hl : letter = '\\'
    · subst hl
      simpa [continues, Nat.add_assoc] using h
    · simp [continues, hl]
  · rw [he]
    simp [continues, hc '\\' (by simp)]

private theorem continues_flatMap (escapeSpace : Bool) (text : List Char) {reversed : List Char}
    (h : continues reversed = false) :
    continues ((text.flatMap (escapeChar escapeSpace)).reverse ++ reversed) = false := by
  induction text generalizing reversed with
  | nil => exact h
  | cons c text ih =>
    rw [List.flatMap_cons, List.reverse_append, List.append_assoc]
    exact ih (continues_escapeChar escapeSpace c h)

/-- Backslashes are doubled, so that no line goes on in the next. -/
theorem continues_entryLine (key value : List Char) :
    continues (entryLine key value).reverse = false := by
  have hkey : continues ('=' :: (escapeKey key).reverse) = false := rfl
  rw [entryLine, List.reverse_append, List.reverse_cons, List.append_assoc, List.singleton_append]
  cases value with
  | nil => exact hkey
  | cons c value =>
    rw [escapeValue, List.reverse_append, List.append_assoc]
    exact continues_flatMap false value (continues_escapeChar true c hkey)

end MethodMetadata.Mapping
