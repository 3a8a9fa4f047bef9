import MethodMetadata.Fault

/-! Binary formats: a reader that takes a value from the front of bytes, and the writer of the
same value. Formats of structures are put together from those of their fields. -/
namespace MethodMetadata

/-- A way of reading values from bytes and of writing them. -/
structure Format (α : Type) where
  read : List UInt8 → Except Fault (α × List UInt8)
  write : α → Except Fault (List UInt8)

/-- The last `width` bytes of a number, the most significant one first. -/
def toBigEndian : Nat → Nat → List UInt8
  | 0, _ => []
  | width + 1, n => UInt8.ofNat (n >>> (8 * width)) :: toBigEndian width n

def ofBigEndian (bytes : List UInt8) : Nat :=
  bytes.foldl (fun n b => n * 256 + b.toNat) 0

def takeBlock (length : Nat) (bytes : List UInt8) : Except Fault (List UInt8 × List UInt8) :=
  let block := bytes.take length
  if block.length = length then .ok (block, bytes.drop length)
  else .error (.shortBlock length block.length)

def expectEnd (what : String) : List UInt8 → Except Fault Unit
  | [] => .ok ()
  | rest => .error (.trailing rest.length what)

namespace Format

variable {α β : Type}

def bigEndian (width : Nat) : Format Nat where
  read bytes :=
    let field := bytes.take width
    if field.length = width then .ok (ofBigEndian field, bytes.drop width) else .error .endOfInput
  write n := .ok (toBigEndian width n)

def pair (first : Format α) (second : Format β) : Format (α × β) where
  read bytes := do
    let (a, rest) ← first.read bytes
    let (b, rest) ← second.read rest
    return ((a, b), rest)
  write value := do
    let left ← first.write value.1
    let right ← second.write value.2
    return left ++ right

def imap (format : Format α) (pack : α → β) (unpack : β → α) : Format β where
  read bytes := do
    let (a, rest) ← format.read bytes
    return (pack a, rest)
  write value := format.write (unpack value)

def byte : Format UInt8 :=
  (bigEndian 1).imap UInt8.ofNat UInt8.toNat

def word16 : Format UInt16 :=
  (bigEndian 2).imap UInt16.ofNat UInt16.toNat

def word32 : Format UInt32 :=
  (bigEndian 4).imap UInt32.ofNat UInt32.toNat

def word64 : Format UInt64 :=
  (bigEndian 8).imap UInt64.ofNat UInt64.toNat

/-- Reads a number of values behind those read before, which are held in reverse. -/
def readManyOnto (format : Format α) (done : List α) :
    Nat → List UInt8 → Except Fault (List α × List UInt8)
  | 0, bytes => .ok (done.reverse, bytes)
  | count + 1, bytes =>
    match format.read bytes with
    | .error e => .error e
    | .ok (value, rest) => readManyOnto format (value :: done) count rest

def writeMany (format : Format α) (values : List α) : Except Fault (List UInt8) := do
  let parts ← values.mapM format.write
  return parts.flatten

/-- A sequence behind its length in two bytes. -/
def counted (format : Format α) : Format (List α) where
  read bytes := do
    let (count, rest) ← word16.read bytes
    readManyOnto format [] count.toNat rest
  write values :=
    if values.length < 65536 then do
      let count ← word16.write (UInt16.ofNat values.length)
      let body ← writeMany format values
      return count ++ body
    else .error (.sequenceTooLong values.length)

/-- A block of bytes behind its length in four bytes. -/
def block32 : Format (List UInt8) where
  read bytes := do
    let (length, rest) ← word32.read bytes
    takeBlock length.toNat rest
  write block := do
    let length ← word32.write (UInt32.ofNat block.length)
    return length ++ block

def readAll (format : Format α) (what : String) (bytes : List UInt8) : Except Fault α := do
  let (value, rest) ← format.read bytes
  expectEnd what rest
  return value

end Format

end MethodMetadata
