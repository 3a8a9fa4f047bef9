import MethodMetadata.Pattern.Escape

/-! Reading sets of characters between brackets. -/
namespace MethodMetadata.Pattern

def namedSets : List (String × NamedSet) :=
  [("alnum", .alnum), ("alpha", .alpha), ("ascii", .ascii), ("blank", .blank), ("cntrl", .cntrl),
    ("digit", .digit), ("graph", .graph), ("lower", .lower), ("print", .print), ("punct", .punct),
    ("space", .space), ("upper", .upper), ("word", .word), ("xdigit", .xdigit)]

namespace ClassSet

/-- Items, given in reverse, as one set. Without items it is nothing at a position. -/
def ofItems (spot : Spot) (items : List ClassSet) : ClassSet :=
  match items with
  | [] => nothing (.point spot)
  | [item] => item
  | last :: _ =>
    let start := ((items.getLast?).getD last).span.start
    union ⟨start, last.span.stop⟩ items.reverse

/-- A set with what stands to the left of it, if there is an operation in front of it. -/
def combine (left : Option (ClassSet × SetOperation)) (right : ClassSet) : ClassSet :=
  match left with
  | none => right
  | some (left, operation) => combined ⟨left.span.start, right.span.stop⟩ operation left right

end ClassSet

namespace Reader

def namedSet? : Reader (Option ClassSet) := do
  let start ← spot
  match (← get).chars with
  | '[' :: ':' :: rest =>
    let negated := rest.head? = some '^'
    let rest := if negated then rest.drop 1 else rest
    let name := rest.takeWhile (· ≠ ':')
    match (rest.drop name.length).take 2, namedSets.lookup (String.ofList name) with
    | [':', ']'], some set =>
      bumpMany (name.length + (if negated then 5 else 4))
      return some (.named ⟨start, ← spot⟩ set negated)
    | _, _ => return none
  | _ => return none

def item : Reader Tree := do
  match ← peek? with
  | some '\\' => escape
  | some c => return .letter (← verbatim c)
  | none => fail .classUnclosed (.point (← spot))

def asSet : Tree → Reader ClassSet
  | .letter letter => return .letter letter
  | .property span property => return .property span property
  | .shorthand span set negated => return .shorthand span set negated
  | tree => fail .classEscape tree.span

def asBoundary : Tree → Reader Letter
  | .letter letter => return letter
  | tree => fail .classRangeBoundary tree.span

def range (opened : Span) : Reader ClassSet := do
  let first ← item
  bumpBlanks
  match ← peek? with
  | none => fail .classUnclosed opened
  | some c =>
    let behind ← peekBehindBlanks?
    if c ≠ '-' ∨ behind = some ']' ∨ behind = some '-' then asSet first
    else
      bumpOn
      if (← peek?).isNone then fail .classUnclosed opened
      let last ← item
      let first ← asBoundary first
      let last ← asBoundary last
      if last.char < first.char then fail .classRangeOrder ⟨first.span.start, last.span.stop⟩
      return .range first last

/-- Goes on behind a character at the start of a set, which must not be the last of the pattern. -/
def bumpWithin (unclosed : Spot → Span) : Reader Unit := do
  bumpOn
  if (← peek?).isNone then fail .classUnclosed (unclosed (← spot))

/-- Hyphens at the start of a set stand for themselves. -/
def hyphens (start : Spot) : Nat → List ClassSet → Reader (List ClassSet)
  | 0, items => return items
  | most + 1, items => do
    if (← peek?) = some '-' then
      let span ← nextSpan
      bumpWithin fun _ => .point start
      hyphens start most (.letter { span, char := '-' } :: items)
    else return items

/-- The start of a set. -/
structure Opening where
  span : Span
  negated : Bool
  /-- Where the items begin. -/
  first : Spot
  items : List ClassSet

/-- Reads the start of a set: the bracket, the sign of negation, and characters that stand for
themselves only there. -/
def opening : Reader Opening := do
  let start ← spot
  bumpWithin (⟨start, ·⟩)
  let negated := (← peek?) = some '^'
  if negated then bumpWithin (⟨start, ·⟩)
  let first ← spot
  let items ← hyphens start (← get).chars.length []
  if items.isEmpty ∧ (← peek?) = some ']' then
    let span ← nextSpan
    bumpWithin (⟨start, ·⟩)
    return ⟨⟨start, ← spot⟩, negated, first, [.letter { span, char := ']' }]⟩
  else return ⟨⟨start, ← spot⟩, negated, first, items⟩

def operation? : Reader (Option SetOperation) := do
  match (← get).chars with
  | '&' :: '&' :: _ => return some .intersection
  | '-' :: '-' :: _ => return some .difference
  | '~' :: '~' :: _ => return some .symmetricDifference
  | _ => return none

/-- Reads the items of a set up to its closing bracket, behind those already read, which are held
in reverse. An item takes a character, so there are no more items than `most` characters. -/
def items (opening : Opening) (left : Option (ClassSet × SetOperation)) :
    Nat → Reader ClassSet
  | 0 => fail .classUnclosed opening.span
  | most + 1 => do
    bumpBlanks
    match ← operation?, ← peek? with
    | _, none => fail .classUnclosed opening.span
    | some operation, _ =>
      bumpMany 2
      let left := .combine left (.ofItems opening.first opening.items)
      items { opening with first := ← spot, items := [] } (some (left, operation)) most
    | none, some ']' => return .combine left (.ofItems opening.first opening.items)
    | none, some '[' =>
      match ← namedSet? with
      | some set => items { opening with items := set :: opening.items } left most
      | none =>
        let inner ← Reader.opening
        let set ← items inner none most
        bump
        let set := .bracketed ⟨inner.span.start, ← spot⟩ inner.negated set
        items { opening with items := set :: opening.items } left most
    | none, some _ =>
      let set ← range opening.span
      items { opening with items := set :: opening.items } left most

def bracketed : Reader Tree := do
  let opening ← opening
  let set ← items opening none ((← get).chars.length + 1)
  bump
  return .bracketed ⟨opening.span.start, ← spot⟩ opening.negated set

end Reader

end MethodMetadata.Pattern
