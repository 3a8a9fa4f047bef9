import MethodMetadata.Pattern.Reading

/-! Escapes: characters that stand for themselves, characters by number, conditions and sets. -/
namespace MethodMetadata.Pattern

def metaCharacters : List Char :=
  "\\.+*?()|[]\x7b\x7d^$#&-~".toList

/-- Whether a character may be escaped without need. -/
def isEscapable (c : Char) : Bool :=
  c ∈ metaCharacters || (c.toNat < 0x80 && !c.isAlphanum && c ≠ '<' && c ≠ '>')

def controlCharacters : List (Char × Char) :=
  [('a', '\x07'), ('f', '\x0c'), ('t', '\t'), ('n', '\n'), ('r', '\r'), ('v', '\x0b')]

def assertionLetters : List (Char × Assertion) :=
  [('A', .textStart), ('z', .textEnd), ('b', .word), ('B', .notWord), ('<', .wordStart),
    ('>', .wordEnd)]

/-- The sets that have letters of their own; a capital one is for all other characters. -/
def shorthandLetters : List (Char × Shorthand × Bool) :=
  [('d', .digit, false), ('s', .space, false), ('w', .word, false), ('D', .digit, true),
    ('S', .space, true), ('W', .word, true)]

def boundaryNames : List (String × Assertion) :=
  [("start", .wordStart), ("end", .wordEnd), ("start-half", .wordStartHalf),
    ("end-half", .wordEndHalf)]

namespace Reader

def isHexDigit (c : Char) : Bool :=
  (Hex.value? c).isSome

/-- The character of a number in hexadecimal digits, which stand at a span. -/
def characterOf (digits : List Char) (span : Span) : Reader Char := do
  let n := valueOf 16 digits
  if n.isValidChar then return Char.ofNat n else fail .hexInvalid span

def bracedHex (start : Spot) : Reader Tree := do
  let brace ← spot
  bumpOn
  let first ← spot
  let digits ← takeAll isHexDigit
  match ← peek? with
  | none => fail .escapeUnfinished ⟨brace, ← spot⟩
  | some '\x7d' =>
    let stop ← spot
    bumpOn
    if digits.isEmpty then fail .hexEmpty ⟨brace, ← spot⟩
    let c ← characterOf digits ⟨first, stop⟩
    return .letter { span := ⟨start, ← spot⟩, char := c }
  | some _ => fail .hexDigit (← nextSpan)

def fixedHex (start : Spot) (width : Nat) : Reader Tree := do
  let first ← spot
  let digits ← takeSome isHexDigit width []
  if digits.length < width then
    match ← peek? with
    | none => fail .escapeUnfinished (.point (← spot))
    | some _ => fail .hexDigit (← nextSpan)
  else
    let stop ← spot
    let c ← characterOf digits ⟨first, stop⟩
    return .letter { span := ⟨start, stop⟩, char := c, isByte := width = 2 }

/-- A character by its number, behind the letter that tells the width. -/
def hex (start : Spot) (width : Nat) : Reader Tree := do
  bumpOn
  match ← peek? with
  | none => fail .escapeUnfinished (.point (← spot))
  | some '\x7b' => bracedHex start
  | some _ => fixedHex start width

def isValued (name : List Char) : Bool :=
  name.any fun c => c = ':' || c = '='

def property (start : Spot) : Reader Tree := do
  bumpOn
  match ← peek? with
  | none => fail .escapeUnfinished (.point (← spot))
  | some '\x7b' =>
    bumpOn
    let name ← takeAll (· ≠ '\x7d')
    if (← peek?).isNone then fail .escapeUnfinished (.point (← spot))
    bump
    return .property ⟨start, ← spot⟩ (if isValued name then .valued else .named name)
  | some c =>
    if c = '\\' then fail .propertyInvalid (← nextSpan)
    bumpOn
    return .property ⟨start, ← spot⟩ .letter

/-- A condition on the boundary of words that is named between braces. Braces around something
else are left for a count. -/
def boundary? (start : Spot) : Reader (Option Assertion) := do
  let isNameChar (c : Char) : Bool := c.isAlpha || c = '-'
  let before ← get
  let brace ← spot
  bumpOn
  let first ← spot
  match ← peek? with
  | none => fail .boundaryOrCountUnfinished ⟨start, ← spot⟩
  | some c =>
    if isNameChar c then
      let name ← takeAll isNameChar
      if (← peek?) ≠ some '\x7d' then fail .boundaryUnclosed ⟨brace, ← spot⟩
      let stop ← spot
      bump
      match boundaryNames.lookup (String.ofList name) with
      | some condition => return some condition
      | none => fail .boundaryUnknown ⟨first, stop⟩
    else
      set before
      return none

def assertion (start : Spot) (condition : Assertion) : Reader Tree := do
  if condition = .word ∧ (← peek?) = some '\x7b' then
    let named ← boundary? start
    return .assertion ⟨start, ← spot⟩ (named.getD condition)
  else return .assertion ⟨start, ← spot⟩ condition

/-- An escape whose meaning is in a single character, which was left out. -/
def shortEscape (start : Spot) (c : Char) : Reader Tree := do
  let span : Span := ⟨start, ← spot⟩
  if isEscapable c then return .letter { span, char := c }
  else
    match controlCharacters.lookup c, assertionLetters.lookup c, shorthandLetters.lookup c with
    | some control, _, _ => return .letter { span, char := control }
    | none, some condition, _ => assertion start condition
    | none, none, some (set, negated) => return .shorthand span set negated
    | none, none, none => fail .escapeUnknown span

def escape : Reader Tree := do
  let start ← spot
  bump
  match ← peek? with
  | none => fail .escapeUnfinished ⟨start, ← spot⟩
  | some c =>
    if c.isDigit then fail .backreference ⟨start, (← nextSpan).stop⟩
    match c with
    | 'x' => hex start 2
    | 'u' => hex start 4
    | 'U' => hex start 8
    | 'p' | 'P' => property start
    | c =>
      bump
      shortEscape start c

def verbatim (c : Char) : Reader Letter := do
  let span ← nextSpan
  bump
  return { span, char := c }

end Reader

end MethodMetadata.Pattern
