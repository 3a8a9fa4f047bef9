/-! Vectors whose elements take up a width each and are looked up by offset, the sum of the
widths in front of them. Lookup is a binary search. -/
namespace MethodMetadata

/-- Elements that take up some number of slots. -/
class Wide (α : Type) where
  width : α → Nat

/-- Entries lie one behind the other from `start` on, and the next one goes to `next`. -/
def LaidOut {α : Type} [Wide α] : Nat → List (Nat × α) → Nat → Prop
  | start, [], next => next = start
  | start, (offset, a) :: rest, next => offset = start ∧ LaidOut (start + Wide.width a) rest next

private theorem LaidOut.concat {α : Type} [Wide α] {start next : Nat} {entries : List (Nat × α)}
    (h : LaidOut start entries next) (a : α) :
    LaidOut start (entries ++ [(next, a)]) (next + Wide.width a) := by
  induction entries generalizing start with
  | nil => simp only [LaidOut] at h; simp [LaidOut, h]
  | cons e rest ih => exact ⟨h.1, ih h.2⟩

/-- Elements with their offsets; the first lies at `start` and the next will lie at `next`. Offsets
have no largest one here. Only constant pools hold such vectors: theirs start at one, and a constant
that would take `next` beyond 65535 is refused before it is pushed. -/
structure OffsetVector (α : Type) [Wide α] where
  start : Nat
  entries : Array (Nat × α)
  next : Nat
  laidOut : LaidOut start entries.toList next

/-- What lies at an offset: an element and its position, the inside of what comes before a
position, or nothing yet. -/
inductive Lookup (α : Type)
  | found (position : Nat) (value : α)
  | inside (position : Nat)
  | beyond
  deriving DecidableEq, Repr

namespace OffsetVector

variable {α : Type} [Wide α]

def empty (start : Nat) : OffsetVector α where
  start := start
  entries := #[]
  next := start
  laidOut := rfl

def push (v : OffsetVector α) (a : α) : OffsetVector α where
  start := v.start
  entries := v.entries.push (v.next, a)
  next := v.next + Wide.width a
  laidOut := by simpa using v.laidOut.concat a

def size (v : OffsetVector α) : Nat :=
  v.entries.size

def offsetAt (v : OffsetVector α) (position : Nat) : Nat :=
  match v.entries[position]? with
  | some entry => entry.1
  | none => v.next

/-- Halves a range of positions until one is left that may hold the offset. Every step makes
the range smaller, so its size bounds the steps. -/
def narrow (v : OffsetVector α) (offset : Nat) : Nat → Nat → Nat → Nat
  | 0, base, _ => base
  | steps + 1, base, size =>
    if size ≤ 1 then base
    else
      let middle := base + size / 2
      narrow v offset steps (if v.offsetAt middle ≤ offset then middle else base) (size - size / 2)

def lookup (v : OffsetVector α) (offset : Nat) : Lookup α :=
  let position := v.narrow offset v.size 0 v.size
  match v.entries[position]? with
  | none => .beyond
  | some entry =>
    if entry.1 = offset then .found position entry.2
    else if offset < entry.1 then .inside position
    else if position + 1 = v.size then .beyond
    else .inside (position + 1)

def get? (v : OffsetVector α) (offset : Nat) : Option α :=
  match v.lookup offset with
  | .found _ a => some a
  | _ => none

def find? (v : OffsetVector α) (p : α → Bool) : Option Nat :=
  (v.entries.find? fun entry => p entry.2).map (·.1)

def describe (v : OffsetVector α) (text : α → String) : String :=
  "[" ++ ", ".intercalate (v.entries.toList.map fun entry => s!"#{entry.1} = {text entry.2}") ++ "]"

end OffsetVector

end MethodMetadata
