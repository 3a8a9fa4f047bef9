import MethodMetadata.Text.Split

/-! Places in a tree of directories, seen from a working directory whose own name is not known,
and the paths that lead to them. -/
namespace MethodMetadata

/-- Where the names of a place start: a number of steps above the working directory, or at the
top of the tree. -/
inductive Origin
  | above (steps : Nat)
  | top
  deriving DecidableEq, Repr

/-- The names on the way down from an origin. -/
structure Place where
  origin : Origin
  names : List String
  deriving DecidableEq, Repr

namespace Place

def working : Place := ⟨.above 0, []⟩

def child (place : Place) (name : String) : Place :=
  { place with names := place.names ++ [name] }

/-- The directory that a place lies in. The top lies in itself. -/
def parent (place : Place) : Place :=
  match place.names, place.origin with
  | [], .above steps => ⟨.above (steps + 1), []⟩
  | [], .top => place
  | names, _ => { place with names := names.dropLast }

end Place

/-- A step of a path. -/
inductive PathStep
  | stay
  | up
  | down (name : String)
  deriving DecidableEq, Repr

/-- A path taken apart: where it starts, its steps, and whether a slash stands behind them. -/
structure Path where
  start : Place
  steps : List PathStep
  trailing : Bool
  deriving DecidableEq, Repr

namespace PathStep

def ofPiece (piece : List Char) : PathStep :=
  if piece = ['.'] then .stay else if piece = ['.', '.'] then .up else .down (String.ofList piece)

end PathStep

namespace Path

def maxSize : Nat := 4095

def maxNameSize : Nat := 255

/-- Takes a path apart. Slashes side by side count as one. -/
def ofString (text : String) : Path where
  start := if text.toList.head? = some '/' then ⟨.top, []⟩ else .working
  steps := ((splitOn '/' text.toList).filter (!·.isEmpty)).map PathStep.ofPiece
  trailing := text.toList.getLast? = some '/'

end Path

end MethodMetadata
