import MethodMetadata.Deflate.Huffman

/-! Compressed data: blocks of plain bytes, and blocks of symbols that stand for a byte or for a
stretch of what was already written. -/
namespace MethodMetadata.Deflate

/-- Numbers with extra bits: the least number of each symbol, and how many bits are added. -/
structure ExtraBits where
  least : Nat
  extra : Nat

/-- The lengths of stretches by symbol, from 257 on. -/
def stretchLengths : Array ExtraBits :=
  #[⟨3, 0⟩, ⟨4, 0⟩, ⟨5, 0⟩, ⟨6, 0⟩, ⟨7, 0⟩, ⟨8, 0⟩, ⟨9, 0⟩, ⟨10, 0⟩, ⟨11, 1⟩, ⟨13, 1⟩, ⟨15, 1⟩,
    ⟨17, 1⟩, ⟨19, 2⟩, ⟨23, 2⟩, ⟨27, 2⟩, ⟨31, 2⟩, ⟨35, 3⟩, ⟨43, 3⟩, ⟨51, 3⟩, ⟨59, 3⟩, ⟨67, 4⟩,
    ⟨83, 4⟩, ⟨99, 4⟩, ⟨115, 4⟩, ⟨131, 5⟩, ⟨163, 5⟩, ⟨195, 5⟩, ⟨227, 5⟩, ⟨258, 0⟩]

def stretchDistances : Array ExtraBits :=
  #[⟨1, 0⟩, ⟨2, 0⟩, ⟨3, 0⟩, ⟨4, 0⟩, ⟨5, 1⟩, ⟨7, 1⟩, ⟨9, 2⟩, ⟨13, 2⟩, ⟨17, 3⟩, ⟨25, 3⟩, ⟨33, 4⟩,
    ⟨49, 4⟩, ⟨65, 5⟩, ⟨97, 5⟩, ⟨129, 6⟩, ⟨193, 6⟩, ⟨257, 7⟩, ⟨385, 7⟩, ⟨513, 8⟩, ⟨769, 8⟩,
    ⟨1025, 9⟩, ⟨1537, 9⟩, ⟨2049, 10⟩, ⟨3073, 10⟩, ⟨4097, 11⟩, ⟨6145, 11⟩, ⟨8193, 12⟩,
    ⟨12289, 12⟩, ⟨16385, 13⟩, ⟨24577, 13⟩]

def numberOf (table : Array ExtraBits) (symbol : Nat) : Bits Nat :=
  match table[symbol]? with
  | some entry => do return entry.least + (← bits entry.extra)
  | none => throw .corruptStream

/-- Writes a stretch again that starts a distance back. Zeros lie in front of the first byte. -/
def copyBack (distance : Nat) : Nat → ByteArray → ByteArray
  | 0, out => out
  | length + 1, out =>
    let byte := if distance ≤ out.size then out[out.size - distance]?.getD 0 else 0
    copyBack distance length (out.push byte)

/-- The two codes of a block: bytes, end mark and stretch lengths, and distances. -/
structure BlockCodes where
  contents : Huffman
  distances : Huffman

/-- Reads symbols up to the end mark. A symbol takes a bit, so there are no more symbols than
`most` bits. -/
def readSymbols (codes : BlockCodes) : Nat → ByteArray → Bits ByteArray
  | 0, _ => throw .incompleteStream
  | most + 1, out => do
    let symbol ← codes.contents.symbol
    if symbol < 256 then readSymbols codes most (out.push (UInt8.ofNat symbol))
    else if symbol = 256 then return out
    else
      let length ← numberOf stretchLengths (symbol - 257)
      let distance ← numberOf stretchDistances (← codes.distances.symbol)
      readSymbols codes most (copyBack distance length out)

def fixedCodes : BlockCodes where
  contents := .ofLengths (List.replicate 144 8 ++ List.replicate 112 9 ++ List.replicate 24 7 ++
    List.replicate 8 8)
  distances := .ofLengths (List.replicate 32 5)

def lengthOrder : List Nat :=
  [16, 17, 18, 0, 8, 7, 9, 6, 10, 5, 11, 4, 12, 3, 13, 2, 14, 1, 15]

/-- Reads the code in which the lengths of the other codes are given. It must be complete. -/
def readLengthCode (count : Nat) : Bits Huffman := do
  let given ← (List.range count).mapM fun _ => bits 3
  let lengths := (List.range 19).map fun symbol =>
    (((lengthOrder.zip given).find? (·.1 = symbol)).map (·.2)).getD 0
  let code := Huffman.ofLengths lengths
  if code.isComplete then return code else throw .corruptStream

/-- Reads lengths until there are `total`, behind those already read, which are held in reverse.
A symbol gives at least one length. -/
def readLengths (code : Huffman) (total : Nat) : Nat → List Nat → Bits (List Nat)
  | 0, read => return read.reverse
  | most + 1, read => do
    if read.length ≥ total then
      if read.length = total then return read.reverse else throw .corruptStream
    else
      let symbol ← code.symbol
      if symbol < 16 then readLengths code total most (symbol :: read)
      else if symbol = 16 then
        match read with
        | [] => throw .corruptStream
        | last :: _ =>
          let count ← bits 2
          readLengths code total most (List.replicate (3 + count) last ++ read)
      else if symbol = 17 then
        let count ← bits 3
        readLengths code total most (List.replicate (3 + count) 0 ++ read)
      else
        let count ← bits 7
        readLengths code total most (List.replicate (11 + count) 0 ++ read)

/-- A code for the contents of a block. It is complete, or else it has one word of one bit or no
word at all, as a block may do whose distances are all alike or not used. -/
def contentCode (lengths : List Nat) : Bits Huffman :=
  let code := Huffman.ofLengths lengths
  if code.isComplete || code.isSingle then return code else throw .corruptStream

def readCodes : Bits BlockCodes := do
  let contents := 257 + (← bits 5)
  let distances := 1 + (← bits 5)
  let count := 4 + (← bits 4)
  if contents > 286 ∨ distances > 30 then throw .corruptStream
  else
    let code ← readLengthCode count
    let lengths ← readLengths code (contents + distances) (contents + distances + 1) []
    let distanceCode ← contentCode (lengths.drop contents)
    let contentsCode ← contentCode (lengths.take contents)
    return ⟨contentsCode, distanceCode⟩

/-- Reads a block of plain bytes, whose length is given twice. -/
def readPlain (out : ByteArray) : Bits ByteArray := do
  alignToByte
  let length ← bits 16
  let inverse ← bits 16
  if length + inverse = 65535 then return out ++ (← wholeBytes length) else throw .corruptStream

/-- Reads blocks up to the last one. A block takes a bit, so there are no more blocks than `most`
bits. -/
def readBlocks : Nat → ByteArray → Bits ByteArray
  | 0, _ => throw .incompleteStream
  | most + 1, out => do
    let last ← bit
    let out ← match ← bits 2 with
      | 0 => readPlain out
      | 1 => readSymbols fixedCodes (most + 1) out
      | 2 => do readSymbols (← readCodes) (most + 1) out
      | _ => throw .corruptStream
    if last = 1 then return out else readBlocks most out

/-- The data that was compressed. What follows the last block is not looked at. -/
def inflate (bytes : ByteArray) : Except Fault ByteArray :=
  (readBlocks (8 * bytes.size) ByteArray.empty).run' { bytes := bytes }

def plainSize : Nat := 65535

def plainBlock (last : Bool) (bytes : ByteArray) : ByteArray :=
  let length := bytes.size
  ByteArray.mk #[if last then 1 else 0, UInt8.ofNat length, UInt8.ofNat (length / 256),
    UInt8.ofNat (65535 - length), UInt8.ofNat ((65535 - length) / 256)] ++ bytes

def storeOnto (bytes : ByteArray) (start : Nat) (out : ByteArray) : ByteArray :=
  if bytes.size ≤ start + plainSize then out ++ plainBlock true (bytes.extract start bytes.size)
  else
    storeOnto bytes (start + plainSize)
      (out ++ plainBlock false (bytes.extract start (start + plainSize)))
termination_by bytes.size - start
decreasing_by simp only [plainSize] at *; omega

/-- A form of data that `inflate` reads, without making it smaller. -/
def store (bytes : ByteArray) : ByteArray :=
  storeOnto bytes 0 ByteArray.empty

end MethodMetadata.Deflate
