import MethodMetadata.Archive.EndRecord
import MethodMetadata.Archive.Entry
import MethodMetadata.Text.CodePage437
import MethodMetadata.Text.Utf8

/-! The directory of an archive: a header for each entry, with extra fields behind its name. -/
namespace MethodMetadata.Archive

/-- What is known of an entry before its contents are looked at. -/
structure Header where
  name : String
  encrypted : Bool
  /-- Whether an extra field tells how the contents are encrypted. -/
  aes : Bool
  method : Nat
  timestamp : Timestamp
  checksum : UInt32
  compressedSize : Nat
  offset : Nat
  /-- The file mode, if the system that the entry was made on has one. -/
  mode : Option Nat
  deriving DecidableEq, Repr

/-- The parts of a header that its extra fields may give. -/
structure Extras where
  size : Nat
  compressedSize : Nat
  offset : Nat
  method : Nat
  /-- Whether a field about encryption was seen. -/
  aes : Bool := false
  deriving DecidableEq, Repr

namespace Extras

def number? (width : Nat) (field : List UInt8) : Option (Nat × List UInt8) :=
  let digits := field.take width
  if digits.length = width then some (Scan.ofLittleEndian digits, field.drop width) else none

/-- A number in place of one that did not fit. -/
def widen (n : Nat) (field : List UInt8) : Option (Nat × List UInt8) :=
  if n = 0xFFFFFFFF then number? 8 field else some (n, field)

/-- Takes in a field of wide sizes, and tells what is left; nothing is left of a field that was
cut off. What stood in front of the cut counts. -/
def takeWide (extras : Extras) (field : List UInt8) : Extras × Option (List UInt8) :=
  match widen extras.size field with
  | none => (extras, none)
  | some (size, field) =>
    let extras := { extras with size := size }
    match widen extras.compressedSize field with
    | none => (extras, none)
    | some (compressedSize, field) =>
      let extras := { extras with compressedSize := compressedSize }
      match widen extras.offset field with
      | none => (extras, none)
      | some (offset, field) => ({ extras with offset := offset }, some field)

/-- Takes in a field about encryption, which hides the method. -/
def takeAes (extras : Extras) (length : Nat) (field : List UInt8) : Except ArchiveError Extras :=
  if length ≠ 7 then .error .aesFieldLength
  else
    match field with
    | version :: version' :: vendor :: vendor' :: strength :: method :: method' :: _ =>
      if Scan.ofLittleEndian [vendor, vendor'] ≠ 0x4541 then .error .badAesVendor
      else
        let version := Scan.ofLittleEndian [version, version']
        if version ≠ 1 ∧ version ≠ 2 then .error .badAesVendorVersion
        else if strength < 1 ∨ 3 < strength then .error .badAesStrength
        else .ok { extras with method := Scan.ofLittleEndian [method, method'], aes := true }
    | _ => .ok extras

/-- Takes in all extra fields of a header. Each has a kind and a length in front; a field that
was cut off ends them. -/
def takeAll (extras : Extras) : List UInt8 → Except ArchiveError Extras
  | kind :: kind' :: length :: length' :: rest =>
    let kind := Scan.ofLittleEndian [kind, kind']
    let length := Scan.ofLittleEndian [length, length']
    if kind = 0x0001 then
      match extras.takeWide rest with
      | (extras, none) => .ok extras
      | (extras, some left) => takeAll extras (rest.drop (max length (rest.length - left.length)))
    else if kind = 0x9901 then
      match extras.takeAes length rest with
      | .error e => .error e
      | .ok extras => takeAll extras (rest.drop 14)
    else takeAll extras (rest.drop length)
  | _ => .ok extras
termination_by field => field.length
decreasing_by all_goals simp only [List.length_drop, List.length_cons]; omega

end Extras

namespace Header

def mark : Nat := 0x02014B50

/-- The method number that stands for encryption, behind which another method is hidden. -/
def aesMethod : Nat := 99

/-- The file mode by the number of a system and what it notes of a file. One system has modes of
its own; another tells directories and files that must not be written. -/
def modeOf (system attributes : Nat) : Option Nat :=
  if attributes = 0 then none
  else
    match system with
    | 0 =>
      let mode := if attributes.testBit 4 then 0o40775 else 0o100664
      some (if attributes.testBit 0 then mode &&& 0o0555 else mode)
    | 3 => some (attributes >>> 16)
    | _ => none

def scan (shift : Nat) : Scan Header := do
  let found ← Scan.number 4
  if found ≠ mark then throw .badDirectoryHeader
  let version ← Scan.number 2
  Scan.skip 2
  let flags ← Scan.number 2
  let method ← Scan.number 2
  let time ← Scan.number 2
  let date ← Scan.number 2
  let checksum ← Scan.number 4
  let compressedSize ← Scan.number 4
  let size ← Scan.number 4
  let nameLength ← Scan.number 2
  let extraLength ← Scan.number 2
  let commentLength ← Scan.number 2
  Scan.skip 4
  let attributes ← Scan.number 4
  let offset ← Scan.number 4
  let name := (← Scan.block nameLength).data.toList
  let extra := (← Scan.block extraLength).data.toList
  let _ ← Scan.block commentLength
  let extras ← Extras.takeAll { size, compressedSize, offset, method } extra
  if extras.method = aesMethod ∧ ¬extras.aes then throw .missingAesField
  if extras.offset + shift ≥ UInt64.size then throw .offsetTooLarge
  return {
    name := if flags.testBit 11 then Utf8.decodeLossy name else CodePage437.decode name
    encrypted := flags.testBit 0
    aes := extras.aes
    method := extras.method
    timestamp := ⟨UInt16.ofNat date, UInt16.ofNat time⟩
    checksum := UInt32.ofNat checksum
    compressedSize := extras.compressedSize
    offset := extras.offset + shift
    mode := modeOf (version / 256) attributes }

/-- Reads a number of headers behind those already read, which are held in reverse. -/
def scanMany (shift : Nat) (done : List Header) : Nat → Scan (List Header)
  | 0 => return done.reverse
  | count + 1 => do
    let header ← scan shift
    scanMany shift (header :: done) count

end Header

/-- Reads the directory of an archive whose positions from `reach` on cannot be gone to. -/
def readDirectory (reach : Nat) (bytes : ByteArray) : Except ArchiveError (List Header) := do
  let place ← findDirectory bytes
  if reach ≤ place.start then throw .directoryOutOfReach
  (Header.scanMany place.shift [] place.count).runAt bytes place.start

end MethodMetadata.Archive
