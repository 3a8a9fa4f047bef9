import MethodMetadata.Pattern.Meaning

/-! Reading patterns that are fit for use. A pattern is thought of as a machine with a state for
each step of a match; repetitions are written out, and a machine may take up only so much room. -/
namespace MethodMetadata.Pattern

/-- The room of a state and of a way out of one among several. -/
def stateRoom : Nat := 32

def branchRoom : Nat := 4

def rangeRoom : Nat := 8

/-- The room of a set of characters. A single character takes a state for each of its bytes, and
beyond ASCII the bytes of characters share their states. -/
def CharSet.room (set : CharSet) : Nat :=
  match set.ranges with
  | [(first, last)] =>
    if first = last then stateRoom * (Char.ofNat first).utf8Size
    else if last < 0x80 then 2 * stateRoom + rangeRoom
    else 12 * stateRoom
  | ranges =>
    if ranges.all (·.2 < 0x80) then 2 * stateRoom + rangeRoom * ranges.length
    else (12 + ranges.length) * stateRoom

def room : Pattern → Nat
  | empty | look _ => stateRoom
  | oneOf set => set.room
  | group inner => room inner + 2 * stateRoom
  | append first second => room first + room second
  | either first second => room first + room second + stateRoom + branchRoom
  | times least most inner =>
    let choice := stateRoom + 2 * branchRoom
    match most with
    | none => max 1 least * room inner + choice
    | some most => least * room inner + (most - least) * (room inner + choice) + stateRoom

def maxRoom : Nat := 10485760

/-- Whether some condition on words is not within ASCII. -/
def asksForUnicodeWords : Pattern → Bool
  | empty | oneOf _ => false
  | look condition => condition = .unicodeWord
  | group inner | times _ _ inner => asksForUnicodeWords inner
  | append first second | either first second =>
    asksForUnicodeWords first || asksForUnicodeWords second

def read (text : String) : Except Error Pattern := do
  let tree ← Tree.read text.toList
  let pattern ← (Meaning.ofTree tree).run' {}
  if maxRoom < pattern.room then .error (.tooLarge maxRoom)
  else if pattern.asksForUnicodeWords then .error .unicodeWords
  else return pattern

end MethodMetadata.Pattern
