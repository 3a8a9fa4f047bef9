/-! Where the parts of a pattern stand. -/
namespace MethodMetadata.Pattern

/-- A position: the number of characters in front of it, and line and column counted from one. -/
structure Spot where
  offset : Nat
  line : Nat
  column : Nat
  deriving DecidableEq, Repr

namespace Spot

def first : Spot := ⟨0, 1, 1⟩

def next (spot : Spot) (c : Char) : Spot :=
  if c = '\n' then ⟨spot.offset + 1, spot.line + 1, 1⟩
  else ⟨spot.offset + 1, spot.line, spot.column + 1⟩

end Spot

/-- What stands between two positions. -/
structure Span where
  start : Spot
  stop : Spot
  deriving DecidableEq, Repr

namespace Span

def point (spot : Spot) : Span := ⟨spot, spot⟩

def isOneLine (span : Span) : Bool :=
  span.start.line = span.stop.line

/-- Spans are in order of their starts, and from one start the shorter is first. -/
def precedes (a b : Span) : Bool :=
  a.start.offset < b.start.offset ||
    (a.start.offset = b.start.offset && a.stop.offset ≤ b.stop.offset)

end Span

end MethodMetadata.Pattern
