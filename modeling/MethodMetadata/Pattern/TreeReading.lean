import MethodMetadata.Pattern.ClassReading

/-! Reading patterns: groups, branches, repetitions. -/
namespace MethodMetadata.Pattern

def flagLetters : List (Char × Flag) :=
  [('i', .ignoreCase), ('m', .manyLines), ('s', .dotTakesAll), ('U', .swapGreed), ('u', .unicode),
    ('R', .carriageReturns), ('x', .ignoreBlanks)]

/-- Parts one behind the other, in reverse, and where they begin. -/
structure Run where
  first : Spot
  parts : List Tree := []

namespace Run

def add (run : Run) (part : Tree) : Run :=
  { run with parts := part :: run.parts }

def toTree (run : Run) (stop : Spot) : Tree :=
  match run.parts with
  | [] => .empty ⟨run.first, stop⟩
  | [part] => part
  | parts => .concatenation ⟨run.first, stop⟩ parts.reverse

end Run

/-- Branches in reverse, and the run behind them. -/
structure Branches where
  first : Spot
  done : List Tree := []
  run : Run

namespace Branches

def start (spot : Spot) : Branches := ⟨spot, [], ⟨spot, []⟩⟩

def add (branches : Branches) (part : Tree) : Branches :=
  { branches with run := branches.run.add part }

def toTree (branches : Branches) (stop : Spot) : Tree :=
  match branches.done with
  | [] => branches.run.toTree stop
  | done => .alternation ⟨branches.first, stop⟩ (branches.run.toTree stop :: done).reverse

end Branches

namespace Reader

def flags : Nat → List (FlagItem × Span) → Reader (List FlagItem)
  | 0, _ => do fail .flagsUnfinished (.point (← spot))
  | most + 1, items => do
    match ← peek? with
    | none => fail .flagsUnfinished (.point (← spot))
    | some c =>
      if c = ':' ∨ c = ')' then
        match items with
        | (.negation, span) :: _ => fail .flagNegationDangling span
        | _ => return (items.map (·.1)).reverse
      else
        let span ← nextSpan
        let item ← match c, flagLetters.lookup c with
          | '-', _ => pure FlagItem.negation
          | _, some flag => pure (.flag flag)
          | _, none => fail .flagUnknown span
        match items.find? (·.1 = item) with
        | some (_, earlier) =>
          let flaw := if item = .negation then Flaw.flagNegationTwice else .flagTwice
          throw (.part flaw span (some earlier))
        | none =>
          bump
          if (← peek?).isNone then fail .flagsUnfinished (.point (← spot))
          flags most ((item, span) :: items)

def isNameChar (isFirst : Bool) (c : Char) : Bool :=
  if isFirst then c = '_' || isLetter c
  else c ∈ ['_', '.', '[', ']'] || isLetterOrDigit c

def nameChars (isFirst : Bool) : Nat → List Char → Reader (List Char)
  | 0, name => return name.reverse
  | most + 1, name => do
    match ← peek? with
    | none => return name.reverse
    | some '>' => return name.reverse
    | some c =>
      if isNameChar isFirst c then
        bump
        nameChars false most (c :: name)
      else fail .groupNameCharacter (← nextSpan)

/-- Reads and keeps the name of a group, which no other group may have. -/
def groupName : Reader Unit := do
  let start ← spot
  let name ← nameChars true (← get).chars.length []
  let span : Span := ⟨start, ← spot⟩
  if (← peek?).isNone then fail .groupNameUnclosed (.point (← spot))
  bump
  if name.isEmpty then fail .groupNameEmpty (.point start)
  match (← get).names.find? (·.1 = name) with
  | some (_, earlier) => throw (.part .groupNameTwice span (some earlier))
  | none => modify fun rest => { rest with names := (name, span) :: rest.names }

/-- How a group starts, or the switches that stand in its place. -/
inductive GroupStart
  | group (flags : List FlagItem) (captures : Bool)
  | switches (flags : List FlagItem)

/-- Reads the start of a group behind its sign, which stands at `opened`. -/
def groupStart (opened : Span) : Reader GroupStart := do
  bumpBlanks
  for sign in ["?=", "?!", "?<=", "?<!"] do
    if ← bumpIf sign then fail .lookAround ⟨opened.start, ← spot⟩
  let inner ← spot
  if ← ["?P<", "?<"].anyM bumpIf then
    groupName
    return .group [] true
  else if ← bumpIf "?" then
    if (← peek?).isNone then fail .groupUnclosed opened
    let items ← flags ((← get).chars.length + 1) []
    let closes := (← peek?) = some ')'
    bump
    if closes then
      if items.isEmpty then fail .nothingToRepeat (.point inner)
      return .switches items
    else return .group items false
  else return .group [] true

/-- The last part of a run, which is to be repeated, and the run without it. -/
def popRepeatable (branches : Branches) : Reader (Tree × Branches) := do
  match branches.run.parts with
  | part :: parts =>
    if part.isRepeatable then
      return (part, { branches with run := { branches.run with parts } })
    else fail .nothingToRepeat (.point (← spot))
  | [] => fail .nothingToRepeat (.point (← spot))

/-- Reads a sign of repetition. A question mark behind it does not change what matches. -/
def repetition (least : Nat) (most : Option Nat) (branches : Branches) : Reader Branches := do
  let (part, branches) ← popRepeatable branches
  bump
  if (← peek?) = some '?' then bump
  return branches.add (.repetition ⟨part.span.start, ← spot⟩ least most part)

/-- The bounds of a count, behind the least one. A fault of the least one shows late. -/
def countBounds (start : Spot) (least : Except Error Nat) : Reader (Nat × Option Nat) := do
  match ← peek? with
  | none => fail .countUnclosed ⟨start, ← spot⟩
  | some ',' =>
    bumpOn
    match ← peek? with
    | none => fail .countUnclosed ⟨start, ← spot⟩
    | some '\x7d' => return (← least, none)
    | some _ =>
      let least ← least
      return (least, some (← (← decimal)))
  | some _ =>
    let least ← least
    return (least, some least)

def countedRepetition (branches : Branches) : Reader Branches := do
  let start ← spot
  let (part, branches) ← popRepeatable branches
  bumpOn
  if (← peek?).isNone then fail .countUnclosed ⟨start, ← spot⟩
  let (least, most) ← countBounds start (← decimal)
  if (← peek?) ≠ some '\x7d' then fail .countUnclosed ⟨start, ← spot⟩
  bumpOn
  if (← peek?) = some '?' then bump
  if most.any (· < least) then fail .countOrder ⟨start, ← spot⟩
  return branches.add (.repetition ⟨part.span.start, ← spot⟩ least most part)

/-- Reads a part that is none of groups, sets and repetitions. -/
def simplePart (c : Char) : Reader Tree := do
  let span ← nextSpan
  match c with
  | '\\' => escape
  | '.' => bump; return .dot span
  | '^' => bump; return .assertion span .lineStart
  | '$' => bump; return .assertion span .lineEnd
  | c => return .letter (← verbatim c)

/-- Reads branches up to the end of the group that they are in, or of the pattern. A part takes a
character, so there are no more parts than `most` characters. -/
def branches (opened : Option Span) : Nat → Branches → Reader Tree
  | 0, done => return done.toTree (← spot)
  | most + 1, done => do
    bumpBlanks
    match ← peek? with
    | none =>
      match opened with
      | some span => fail .groupUnclosed span
      | none => return done.toTree (← spot)
    | some ')' =>
      if opened.isNone then fail .groupUnopened (← nextSpan)
      return done.toTree (← spot)
    | some '|' =>
      let run := done.run.toTree (← spot)
      bump
      branches opened most { done with done := run :: done.done, run := ⟨← spot, []⟩ }
    | some '(' =>
      let span ← nextSpan
      bump
      match ← groupStart span with
      | .switches items =>
        modify fun rest =>
          { rest with ignoresBlanks := (setting .ignoreBlanks items).getD rest.ignoresBlanks }
        branches opened most (done.add (.flags ⟨span.start, ← spot⟩ items))
      | .group items captures =>
        let before := (← get).ignoresBlanks
        modify fun rest =>
          { rest with ignoresBlanks := (setting .ignoreBlanks items).getD before }
        let inner ← branches (some span) most (.start (← spot))
        modify fun rest => { rest with ignoresBlanks := before }
        bump
        branches opened most (done.add (.group ⟨span.start, ← spot⟩ items captures inner))
    | some '[' => branches opened most (done.add (← bracketed))
    | some '?' => branches opened most (← repetition 0 (some 1) done)
    | some '*' => branches opened most (← repetition 0 none done)
    | some '+' => branches opened most (← repetition 1 none done)
    | some '\x7b' => branches opened most (← countedRepetition done)
    | some c => branches opened most (done.add (← simplePart c))

end Reader

namespace ClassSet

/-- Whether sets are within one another no deeper than allowed; else the first that is too deep. -/
def tooDeep? : Nat → ClassSet → Option Span
  | allowed, .bracketed span _ inner =>
    match allowed with
    | 0 => some span
    | allowed + 1 => tooDeep? allowed inner
  | allowed, .union span items =>
    match allowed with
    | 0 => some span
    | allowed + 1 => items.findSome? (tooDeep? allowed)
  | allowed, .combined span _ left right =>
    match allowed with
    | 0 => some span
    | allowed + 1 => (tooDeep? allowed left).or (tooDeep? allowed right)
  | _, _ => none

end ClassSet

namespace Tree

def tooDeep? : Nat → Tree → Option Span
  | allowed, .bracketed span _ set =>
    match allowed with
    | 0 => some span
    | allowed + 1 => set.tooDeep? allowed
  | allowed, .repetition span _ _ inner | allowed, .group span _ _ inner =>
    match allowed with
    | 0 => some span
    | allowed + 1 => tooDeep? allowed inner
  | allowed, .alternation span parts | allowed, .concatenation span parts =>
    match allowed with
    | 0 => some span
    | allowed + 1 => parts.findSome? (tooDeep? allowed)
  | _, _ => none

def maxDepth : Nat := 250

def read (pattern : List Char) : Except Error Tree := do
  let tree ← (Reader.branches none (pattern.length + 1) (.start .first)).run' { chars := pattern }
  match tree.tooDeep? maxDepth with
  | some span => .error (.part (.nestedTooDeep maxDepth) span none)
  | none => return tree

end Tree

end MethodMetadata.Pattern
