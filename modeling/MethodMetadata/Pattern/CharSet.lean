import MethodMetadata.Pattern.Tree

/-! Sets of characters as ranges of code points. -/
namespace MethodMetadata.Pattern

/-- Ranges of code points, each with its ends, in order and with gaps between them. -/
structure CharSet where
  ranges : List (Nat × Nat)
  deriving DecidableEq, Repr

namespace CharSet

def empty : CharSet := ⟨[]⟩

def contains (set : CharSet) (c : Char) : Bool :=
  set.ranges.any fun (first, last) => first ≤ c.toNat && c.toNat ≤ last

def isEmpty (set : CharSet) : Bool :=
  set.ranges.isEmpty

def maxPoint : Nat := 0x10FFFF

/-- Puts a range in front of others that start behind its start. -/
def join (range : Nat × Nat) : List (Nat × Nat) → List (Nat × Nat)
  | [] => [range]
  | next :: rest =>
    if next.1 ≤ range.2 + 1 then join (range.1, max range.2 next.2) rest else range :: next :: rest

/-- Puts a range in its place among others, and joins ranges that meet. -/
def insert (range : Nat × Nat) : List (Nat × Nat) → List (Nat × Nat)
  | [] => [range]
  | next :: rest =>
    if range.1 ≤ next.1 then join range (next :: rest)
    else if range.1 ≤ next.2 + 1 then join (next.1, max next.2 range.2) rest
    else next :: insert range rest

def ofRanges (ranges : List (Nat × Nat)) : CharSet :=
  ⟨ranges.foldr insert []⟩

def ofChars (first last : Char) : CharSet :=
  ⟨[(first.toNat, last.toNat)]⟩

def union (a b : CharSet) : CharSet :=
  ofRanges (a.ranges ++ b.ranges)

def gaps (start : Nat) : List (Nat × Nat) → List (Nat × Nat)
  | [] => if start ≤ maxPoint then [(start, maxPoint)] else []
  | (first, last) :: rest =>
    if start < first then (start, first - 1) :: gaps (last + 1) rest else gaps (last + 1) rest

def complement (set : CharSet) : CharSet :=
  ⟨gaps 0 set.ranges⟩

def intersection (a b : CharSet) : CharSet :=
  (a.complement.union b.complement).complement

def difference (a b : CharSet) : CharSet :=
  a.intersection b.complement

def combine (operation : SetOperation) (a b : CharSet) : CharSet :=
  match operation with
  | .intersection => a.intersection b
  | .difference => a.difference b
  | .symmetricDifference => (a.difference b).union (b.difference a)

/-- A set with the letters of the other case, as far as ASCII goes. -/
def withBothCases (set : CharSet) : CharSet :=
  let upper := (set.intersection (ofChars 'a' 'z')).ranges.map fun (a, b) => (a - 32, b - 32)
  let lower := (set.intersection (ofChars 'A' 'Z')).ranges.map fun (a, b) => (a + 32, b + 32)
  ofRanges (set.ranges ++ upper ++ lower)

/-- All characters, or all but some that end a line. -/
def any (except : List Char) : CharSet :=
  (ofRanges (except.map fun c => (c.toNat, c.toNat))).complement

end CharSet

def NamedSet.set : NamedSet → CharSet
  | .alnum => .ofRanges [(0x30, 0x39), (0x41, 0x5A), (0x61, 0x7A)]
  | .alpha => .ofRanges [(0x41, 0x5A), (0x61, 0x7A)]
  | .ascii => .ofRanges [(0x00, 0x7F)]
  | .blank => .ofRanges [(0x09, 0x09), (0x20, 0x20)]
  | .cntrl => .ofRanges [(0x00, 0x1F), (0x7F, 0x7F)]
  | .digit => .ofRanges [(0x30, 0x39)]
  | .graph => .ofRanges [(0x21, 0x7E)]
  | .lower => .ofRanges [(0x61, 0x7A)]
  | .print => .ofRanges [(0x20, 0x7E)]
  | .punct => .ofRanges [(0x21, 0x2F), (0x3A, 0x40), (0x5B, 0x60), (0x7B, 0x7E)]
  | .space => .ofRanges [(0x09, 0x0D), (0x20, 0x20)]
  | .upper => .ofRanges [(0x41, 0x5A)]
  | .word => .ofRanges [(0x30, 0x39), (0x41, 0x5A), (0x5F, 0x5F), (0x61, 0x7A)]
  | .xdigit => .ofRanges [(0x30, 0x39), (0x41, 0x46), (0x61, 0x66)]

def Shorthand.set : Shorthand → CharSet
  | .digit => NamedSet.digit.set
  | .space => NamedSet.space.set
  | .word => NamedSet.word.set

end MethodMetadata.Pattern
