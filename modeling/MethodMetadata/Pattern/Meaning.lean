import MethodMetadata.Pattern.Basic
import MethodMetadata.Pattern.TreeReading

/-! What a written pattern matches. Characters of all scripts can be matched one by one and in
ranges, but there are no tables of their cases and properties, so that asking for these fails. -/
namespace MethodMetadata.Pattern

/-- The switches that are on. -/
structure Switches where
  ignoresCase : Bool := false
  manyLines : Bool := false
  dotTakesAll : Bool := false
  unicode : Bool := true
  carriageReturns : Bool := false

namespace Switches

def set (switches : Switches) (items : List FlagItem) : Switches where
  ignoresCase := (setting .ignoreCase items).getD switches.ignoresCase
  manyLines := (setting .manyLines items).getD switches.manyLines
  dotTakesAll := (setting .dotTakesAll items).getD switches.dotTakesAll
  unicode := (setting .unicode items).getD switches.unicode
  carriageReturns := (setting .carriageReturns items).getD switches.carriageReturns

end Switches

/-- Working out a meaning under switches that may change on the way. -/
abbrev Meaning := StateT Switches (Except Error)

namespace Meaning

def fail {α : Type} (flaw : Flaw) (span : Span) : Meaning α :=
  throw (.part flaw span none)

/-- The name of a property without blanks, hyphens and underscores, and without a leading "is". -/
def bareName (name : List Char) : List Char :=
  let lower := name.map Char.toLower
  let tail := if ['i', 's'].isPrefixOf lower then lower.drop 2 else lower
  let bare := tail.filter fun c => c ∉ [' ', '_', '-'] && c.toNat < 0x80
  if ['i', 's'].isPrefixOf lower ∧ bare = ['c'] then "isc".toList else bare

/-- A property cannot be looked up. For a few short names it is the value that is missed. -/
def property {α : Type} (span : Span) (property : Property) : Meaning α := do
  if !(← get).unicode then fail .noUnicodeHere span
  match property with
  | .named name =>
    if bareName name ∈ ["cf".toList, "sc".toList, "lc".toList] then
      fail .propertyValueNotFound span
    else fail .propertyNotFound span
  | _ => fail .propertyNotFound span

/-- A set with the other case where case does not count, and then perhaps all other characters.
Outside of ASCII there are bytes only, which a text cannot be cut into. -/
def finished (span : Span) (negated : Bool) (set : CharSet) : Meaning CharSet := do
  let switches ← get
  if switches.unicode then
    if switches.ignoresCase && !set.isEmpty then fail .unicodeCase span
    return if negated then set.complement else set
  else if negated then fail .brokenText span
  else return if switches.ignoresCase then set.withBothCases else set

def shorthand (span : Span) (set : Shorthand) (negated : Bool) : Meaning CharSet := do
  if (← get).unicode then fail .unicodeShorthand span
  else if negated then fail .brokenText span
  else return set.set

def checkByte (letter : Letter) : Meaning Unit := do
  if !(← get).unicode && letter.isByte && 0x7F < letter.char.toNat then
    fail .brokenText letter.span

def member (letter : Letter) : Meaning Char := do
  checkByte letter
  if !(← get).unicode && 0x7F < letter.char.toNat then fail .noUnicodeHere letter.span
  return letter.char

mutual

def members : ClassSet → Meaning CharSet
  | .nothing _ => return .empty
  | .letter letter => do
    let c ← member letter
    return .ofChars c c
  | .range first last => do
    let first ← member first
    return .ofChars first (← member last)
  | .named span set negated => finished span negated set.set
  | .property span asked => property span asked
  | .shorthand span set negated => shorthand span set negated
  | .bracketed span negated inner => do finished span negated (← members inner)
  | .union _ items => return (← membersOfAll items).foldl CharSet.union .empty
  | .combined _ operation left right => do
    let a ← members left
    let b ← members right
    let b ← finished right.span false b
    let a ← finished left.span false a
    return CharSet.combine operation a b

def membersOfAll : List ClassSet → Meaning (List CharSet)
  | [] => return []
  | set :: rest => do
    let first ← members set
    return first :: (← membersOfAll rest)

end

def letter (letter : Letter) : Meaning Pattern := do
  checkByte letter
  let switches ← get
  let set := CharSet.ofChars letter.char letter.char
  if switches.ignoresCase then
    if switches.unicode then fail .unicodeCase letter.span
    return .oneOf set.withBothCases
  else return .oneOf set

def dot (span : Span) : Meaning Pattern := do
  let switches ← get
  if !switches.unicode then fail .brokenText span
  else if switches.dotTakesAll then return .oneOf (.any [])
  else if switches.carriageReturns then return .oneOf (.any ['\r', '\n'])
  else return .oneOf (.any ['\n'])

def lineLook (single line returnedLine : Look) : Meaning Pattern := do
  let switches ← get
  if !switches.manyLines then return .look single
  else if switches.carriageReturns then return .look returnedLine
  else return .look line

def wordLook (look : Look) : Meaning Pattern := do
  return .look (if (← get).unicode then .unicodeWord else look)

def assertion : Assertion → Meaning Pattern
  | .lineStart => lineLook .textStart .lineStart .returnedLineStart
  | .lineEnd => lineLook .textEnd .lineEnd .returnedLineEnd
  | .textStart => return .look .textStart
  | .textEnd => return .look .textEnd
  | .word => wordLook .word
  | .notWord => wordLook .notWord
  | .wordStart => wordLook .wordStart
  | .wordEnd => wordLook .wordEnd
  | .wordStartHalf => wordLook .wordStartHalf
  | .wordEndHalf => wordLook .wordEndHalf

def appendAll : List Pattern → Pattern
  | [] => .empty
  | [pattern] => pattern
  | pattern :: rest => .append pattern (appendAll rest)

def eitherOf : List Pattern → Pattern
  | [] => .empty
  | [pattern] => pattern
  | pattern :: rest => .either pattern (eitherOf rest)

mutual

/-- What a written pattern matches. Switches hold up to the end of their group. -/
def ofTree : Tree → Meaning Pattern
  | .empty _ => return .empty
  | .flags _ items => do
    modify (·.set items)
    return .empty
  | .letter l => letter l
  | .dot span => dot span
  | .assertion _ condition => assertion condition
  | .property span asked => property span asked
  | .shorthand span set negated => return .oneOf (← shorthand span set negated)
  | .bracketed span negated set => do
    return .oneOf (← finished span negated (← members set))
  | .repetition _ least most inner => return (← ofTree inner).repeated least most
  | .group _ items captures inner => do
    let before ← get
    modify (·.set items)
    let inner ← ofTree inner
    set before
    return if captures then .group inner else inner
  | .alternation _ branches => return eitherOf (← ofTrees branches)
  | .concatenation _ parts => return appendAll (← ofTrees parts)

def ofTrees : List Tree → Meaning (List Pattern)
  | [] => return []
  | tree :: rest => do
    let first ← ofTree tree
    return first :: (← ofTrees rest)

end

end Meaning

end MethodMetadata.Pattern
