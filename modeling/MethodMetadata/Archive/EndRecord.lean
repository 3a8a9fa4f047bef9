import MethodMetadata.Archive.Scan

/-! The records at the end of an archive, which tell where its directory lies. An archive with
large numbers has a wide record in front of the last one. Whatever stands in front of the archive
in its file shifts all positions. -/
namespace MethodMetadata.Archive

/-- Where the directory lies, and how many entries it lists. Positions that it gives are to be
shifted. -/
structure DirectoryPlace where
  shift : Nat
  start : Nat
  count : Nat
  deriving DecidableEq, Repr

/-- The record at the end of an archive. -/
structure EndRecord where
  position : Nat
  disk : Nat
  directoryDisk : Nat
  diskCount : Nat
  count : Nat
  directorySize : Nat
  directoryStart : Nat
  commentLength : Nat
  deriving DecidableEq, Repr

namespace EndRecord

def mark : Nat := 0x06054B50

def size : Nat := 22

def scan (position : Nat) : Scan EndRecord := do
  Scan.skip 4
  let disk ← Scan.number 2
  let directoryDisk ← Scan.number 2
  let diskCount ← Scan.number 2
  let count ← Scan.number 2
  let directorySize ← Scan.number 4
  let directoryStart ← Scan.number 4
  let commentLength ← Scan.number 2
  let _ ← Scan.block commentLength
  return ⟨position, disk, directoryDisk, diskCount, count, directorySize, directoryStart,
    commentLength⟩

/-- Whether some number did not fit, so that the wide record has it. -/
def overflows (record : EndRecord) : Bool :=
  [record.disk, record.directoryDisk, record.diskCount, record.count].any (· = 0xFFFF) ||
    [record.directorySize, record.directoryStart].any (· = 0xFFFFFFFF)

def lastMark? (bytes : ByteArray) : Nat → Nat → Option Nat
  | 0, _ => none
  | tries + 1, position =>
    match (Scan.number 4).runAt bytes position with
    | .ok found =>
      if found = mark then some position
      else if position = 0 then none
      else lastMark? bytes tries (position - 1)
    | .error _ => none

/-- Finds the record; a comment of up to 65535 bytes may stand behind it. -/
def find (bytes : ByteArray) : Except ArchiveError EndRecord :=
  if bytes.size < size then .error .tooShort
  else
    match lastMark? bytes 65536 (bytes.size - size) with
    | none => .error .missingEnd
    | some position => (scan position).runAt bytes position

end EndRecord

/-- The numbers of the wide end record that are of use. -/
structure WideEndRecord where
  disk : Nat
  directoryDisk : Nat
  count : Nat
  directoryStart : Nat
  deriving DecidableEq, Repr

namespace WideEndRecord

def mark : Nat := 0x06064B50

def locatorMark : Nat := 0x07064B50

def locatorSize : Nat := 20

def totalSize : Nat := 60

def scan : Scan WideEndRecord := do
  Scan.skip 16
  let disk ← Scan.number 4
  let directoryDisk ← Scan.number 4
  Scan.skip 8
  let count ← Scan.number 8
  Scan.skip 8
  let directoryStart ← Scan.number 8
  return ⟨disk, directoryDisk, count, directoryStart⟩

/-- The pointer to the record: the disk of the directory and the position of the record. -/
def locatorScan : Scan (Nat × Nat) := do
  Scan.skip 4
  let disk ← Scan.number 4
  let position ← Scan.number 8
  return (disk, position)

/-- The pointer to the record, if it stands where it should. Its place is counted from the end
of all bytes. -/
def locator? (bytes : ByteArray) (last : EndRecord) : Except ArchiveError (Option (Nat × Nat)) :=
  let distance := locatorSize + EndRecord.size + last.commentLength
  if bytes.size < distance then .ok none
  else
    let position := bytes.size - distance
    match (Scan.number 4).runAt bytes position with
    | .error e => .error e
    | .ok found =>
      if found = locatorMark then some <$> locatorScan.runAt bytes position else .ok none

def firstMark? (bytes : ByteArray) : Nat → Nat → Except ArchiveError (Option Nat)
  | 0, _ => .ok none
  | tries + 1, position =>
    match (Scan.number 4).runAt bytes position with
    | .error e => .error e
    | .ok found => if found = mark then .ok (some position) else firstMark? bytes tries (position + 1)

end WideEndRecord

def placeByEnd (last : EndRecord) : Except ArchiveError DirectoryPlace :=
  let announced := last.directorySize + last.directoryStart
  if announced ≤ last.position then
    let shift := last.position - announced
    .ok ⟨shift, last.directoryStart + shift, last.diskCount⟩
  else .error .directoryMisplaced

/-- The place of the directory by the wide record, which lies at the given position or behind
it. -/
def placeByWideEnd (bytes : ByteArray) (last : EndRecord) (disk position : Nat) :
    Except ArchiveError DirectoryPlace := do
  if ¬last.overflows ∧ last.disk ≠ disk then throw .severalDisks
  if last.position < WideEndRecord.totalSize then throw .noRoomForWideEnd
  let most := last.position - WideEndRecord.totalSize
  match ← WideEndRecord.firstMark? bytes (most + 1 - position) position with
  | none => throw .missingWideEnd
  | some found =>
    let record ← WideEndRecord.scan.runAt bytes found
    let shift := found - position
    if record.disk ≠ record.directoryDisk then throw .severalDisks
    if record.directoryStart + shift < UInt64.size then
      return ⟨shift, record.directoryStart + shift, record.count⟩
    else throw .directoryMisplaced

def findDirectory (bytes : ByteArray) : Except ArchiveError DirectoryPlace := do
  let last ← EndRecord.find bytes
  if ¬last.overflows ∧ last.disk ≠ last.directoryDisk then throw .severalDisks
  match ← WideEndRecord.locator? bytes last with
  | none => placeByEnd last
  | some (disk, position) => placeByWideEnd bytes last disk position

end MethodMetadata.Archive
