import MethodMetadata.Pattern.CharSet

/-! Patterns by what they match, and whether a text has a match in it. -/
namespace MethodMetadata

namespace Pattern

/-- A condition on the characters around a position. -/
inductive Look
  | textStart
  | textEnd
  | lineStart
  | lineEnd
  /-- Lines may end in a carriage return too, but not between one and a line feed. -/
  | returnedLineStart
  | returnedLineEnd
  | word
  | notWord
  | wordStart
  | wordEnd
  | wordStartHalf
  | wordEndHalf
  /-- Any condition on words in all scripts, for which there is no table of letters. -/
  | unicodeWord
  deriving DecidableEq, Repr

def isWordChar (c : Option Char) : Bool :=
  c.any NamedSet.word.set.contains

/-- Whether a condition holds between two characters, of which either may be missing. -/
def Look.holds (look : Look) (before after : Option Char) : Bool :=
  match look with
  | .textStart => before.isNone
  | .textEnd => after.isNone
  | .lineStart => before.isNone || before = some '\n'
  | .lineEnd => after.isNone || after = some '\n'
  | .returnedLineStart =>
    before.isNone || before = some '\n' || (before = some '\r' && after ≠ some '\n')
  | .returnedLineEnd =>
    after.isNone || after = some '\r' || (after = some '\n' && before ≠ some '\r')
  | .word => isWordChar before != isWordChar after
  | .notWord => isWordChar before == isWordChar after
  | .wordStart => !isWordChar before && isWordChar after
  | .wordEnd => isWordChar before && !isWordChar after
  | .wordStartHalf => !isWordChar before
  | .wordEndHalf => !isWordChar after
  | .unicodeWord => false

end Pattern

/-- A pattern. What its groups match is not kept. -/
inductive Pattern
  | empty
  | oneOf (set : Pattern.CharSet)
  | look (look : Pattern.Look)
  | group (inner : Pattern)
  | append (first second : Pattern)
  | either (first second : Pattern)
  /-- At least and at most a number of times. -/
  | times (least : Nat) (most : Option Nat) (inner : Pattern)
  deriving DecidableEq, Repr

namespace Pattern

abbrev Marks := List Bool

/-- Takes a step up to a number of times, or until nothing changes. -/
def settle (step : Marks → Marks) : Nat → Marks → Marks
  | 0, marks => marks
  | most + 1, marks =>
    let next := step marks
    if next = marks then marks else settle step most next

def orMarks (a b : Marks) : Marks :=
  List.zipWith (· || ·) a b

def surroundings (text : List Char) : List (Option Char × Option Char) :=
  (none :: text.map some).zip (text.map some ++ [none])

/-- The positions of a text at which matches end that start at marked positions. Positions settle
after as many repetitions as there are characters. -/
def ends (text : List Char) : Pattern → Marks → Marks
  | empty, marks => marks
  | oneOf set, marks => false :: List.zipWith (fun mark c => mark && set.contains c) marks text
  | look condition, marks =>
    List.zipWith (fun mark (before, after) => mark && condition.holds before after) marks
      (surroundings text)
  | group inner, marks => ends text inner marks
  | append first second, marks => ends text second (ends text first marks)
  | either first second, marks => orMarks (ends text first marks) (ends text second marks)
  | times least most inner, marks =>
    let enough := text.length + 2
    let further := match most with
      | none => enough
      | some most => min (most - least) enough
    settle (fun marks => orMarks marks (ends text inner marks)) further
      (settle (ends text inner) (min least enough) marks)

/-- Whether a text has a match somewhere in it. -/
def occursIn (pattern : Pattern) (text : String) : Bool :=
  let chars := text.toList
  (pattern.ends chars (List.replicate (chars.length + 1) true)).any id

def isEmptyOnly : Pattern → Bool
  | empty | look _ => true
  | oneOf _ => false
  | group inner | times _ _ inner => isEmptyOnly inner
  | append first second | either first second => isEmptyOnly first && isEmptyOnly second

/-- A repetition. What matches the empty text only need not be taken twice, and what is taken no
time or once is no repetition. -/
def repeated (least : Nat) (most : Option Nat) (inner : Pattern) : Pattern :=
  let once := inner.isEmptyOnly
  let least := if once then min least 1 else least
  let most := if once then some (min (most.getD 1) 1) else most
  if most = some 0 then empty
  else if least = 1 ∧ most = some 1 then inner
  else times least most inner

end Pattern

end MethodMetadata
