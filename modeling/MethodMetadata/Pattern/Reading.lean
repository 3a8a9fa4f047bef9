import MethodMetadata.Pattern.Error
import MethodMetadata.Pattern.Tree
import MethodMetadata.Text.Blank
import MethodMetadata.Text.Hex
import MethodMetadata.Text.Letter

/-! The state in which patterns are read, and its small steps: characters, blanks, numbers. -/
namespace MethodMetadata.Pattern

/-- What is left of a pattern, where that stands, whether blanks are left out, and the names of
the groups so far. -/
structure Rest where
  chars : List Char
  spot : Spot := .first
  ignoresBlanks : Bool := false
  names : List (List Char × Span) := []

/-- Reading a pattern until a part of it is wrong. -/
abbrev Reader := StateT Rest (Except Error)

namespace Reader

def fail {α : Type} (flaw : Flaw) (span : Span) : Reader α :=
  throw (.part flaw span none)

def spot : Reader Spot :=
  return (← get).spot

def peek? : Reader (Option Char) :=
  return (← get).chars.head?

def nextSpan : Reader Span := do
  let rest ← get
  match rest.chars with
  | [] => return .point rest.spot
  | c :: _ => return ⟨rest.spot, rest.spot.next c⟩

def bump : Reader Unit :=
  modify fun rest =>
    match rest.chars with
    | [] => rest
    | c :: chars => { rest with chars, spot := rest.spot.next c }

def bumpMany (count : Nat) : Reader Unit :=
  (List.range count).forM fun _ => bump

def bumpIf (text : String) : Reader Bool := do
  if text.toList.isPrefixOf (← get).chars then
    bumpMany text.length
    return true
  else return false

/-- The blanks and comments at the start of a text. A comment runs to the end of its line. -/
def blanks (inComment : Bool) : List Char → Nat
  | [] => 0
  | c :: rest =>
    if inComment then blanks (c ≠ '\n') rest + 1
    else if isWhiteSpace c then blanks false rest + 1
    else if c = '#' then blanks true rest + 1
    else 0

def bumpBlanks : Reader Unit := do
  let rest ← get
  if rest.ignoresBlanks then bumpMany (blanks false rest.chars)

def bumpOn : Reader Unit := do
  bump
  bumpBlanks

/-- The character behind the next one and behind blanks that do not count. Of a comment there
only its sign is left out; if nothing else follows, blanks count. -/
def peekBehindBlanks? : Reader (Option Char) := do
  let rest ← get
  let behind := rest.chars.drop 1
  if rest.ignoresBlanks then
    let shown := behind.dropWhile isWhiteSpace
    let shown := match shown with
      | '#' :: more => more.dropWhile isWhiteSpace
      | _ => shown
    return (shown.head?).or behind.head?
  else return behind.head?

/-- Takes characters of a kind, with blanks that do not count between them. A character takes a
step, so `most` is enough if there are no more characters. -/
def takeSome (wanted : Char → Bool) : Nat → List Char → Reader (List Char)
  | 0, taken => return taken.reverse
  | most + 1, taken => do
    match ← peek? with
    | some c =>
      if wanted c then
        bumpOn
        takeSome wanted most (c :: taken)
      else return taken.reverse
    | none => return taken.reverse

def takeAll (wanted : Char → Bool) : Reader (List Char) := do
  takeSome wanted (← get).chars.length []

/-- Runs of blanks count nowhere around a number. -/
def skipWhiteSpace : Reader Unit := do
  bumpMany ((← get).chars.takeWhile isWhiteSpace).length

def valueOf (base : Nat) (digits : List Char) : Nat :=
  digits.foldl (fun n c => n * base + (Hex.value? c).getD 0) 0

def decimal : Reader (Except Error Nat) := do
  skipWhiteSpace
  let start ← spot
  let digits ← takeAll Char.isDigit
  let span : Span := ⟨start, ← spot⟩
  let _ ← takeAll isWhiteSpace
  if digits.isEmpty then return .error (.part .countMissing span none)
  else
    let n := valueOf 10 digits
    if n < UInt32.size then return .ok n else return .error (.part .decimalInvalid span none)

end Reader

end MethodMetadata.Pattern
