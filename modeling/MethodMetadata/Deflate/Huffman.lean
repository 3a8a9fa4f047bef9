import MethodMetadata.Fault

/-! Reading bits, and prefix codes over them. A code is given by the lengths of its words: of
two words the shorter one comes first, and of equally long ones that of the lesser symbol. -/
namespace MethodMetadata.Deflate

/-- Bytes that are read bit by bit, the lowest bit of each byte first. -/
structure BitSource where
  bytes : ByteArray
  /-- The number of bits already read. -/
  position : Nat := 0

/-- Reading bits until they run out or make no sense. -/
abbrev Bits := StateT BitSource (Except Fault)

def bit : Bits Nat := fun source =>
  if h : source.position / 8 < source.bytes.size then
    let byte := source.bytes[source.position / 8].toNat
    .ok (byte >>> (source.position % 8) % 2, { source with position := source.position + 1 })
  else .error .incompleteStream

/-- A number of some bits, the lowest bit first. -/
def bits : Nat → Bits Nat
  | 0 => return 0
  | count + 1 => do
    let low ← bit
    let high ← bits count
    return low + 2 * high

def alignToByte : Bits Unit :=
  modify fun source => { source with position := (source.position + 7) / 8 * 8 }

def wholeBytes (count : Nat) : Bits ByteArray := fun source =>
  let start := source.position / 8
  if start + count ≤ source.bytes.size then
    .ok (source.bytes.extract start (start + count), { source with position := 8 * (start + count) })
  else .error .incompleteStream

/-- The symbols with words of one bit, of two bits and so on up to the longest words, each group
in order. The first group is always there. -/
structure Huffman where
  groups : List (Array Nat)

namespace Huffman

/-- The code of words with the given lengths. A symbol of length zero has no word. -/
def ofLengths (lengths : List Nat) : Huffman :=
  ⟨(List.range' 1 (lengths.foldl max 1)).map fun length =>
    ((lengths.zipIdx.filter (·.1 = length)).map (·.2)).toArray⟩

/-- How many of all sequences as long as the longest words start with a word of these groups. -/
def coverage : List (Array Nat) → Nat
  | [] => 0
  | group :: longer => group.size <<< longer.length + coverage longer

/-- Whether every sequence of bits starts with exactly one word. -/
def isComplete (code : Huffman) : Bool :=
  coverage code.groups = 1 <<< code.groups.length

/-- Whether there is at most a single word, and that of one bit. -/
def isSingle (code : Huffman) : Bool :=
  code.groups.length ≤ 1 && coverage code.groups ≤ 1

/-- Goes on reading a word that is longer than those of the groups passed. Of the beginnings
that no shorter word has taken, `place` stand in front of the one read so far. Bits that no word
starts with make no sense. -/
def symbolOf (place : Nat) : List (Array Nat) → Bits Nat
  | [] => throw .corruptStream
  | group :: longer => do
    let place := 2 * place + (← bit)
    match group[place]? with
    | some symbol => return symbol
    | none => symbolOf (place - group.size) longer

def symbol (code : Huffman) : Bits Nat :=
  symbolOf 0 code.groups

end Huffman

end MethodMetadata.Deflate
