import MethodMetadata.Archive.Reading

/-! Writing archives. Entries are written one behind the other, followed by the directory. -/
namespace MethodMetadata.Archive

def recordBytes (fields : List (Nat × Nat)) : ByteArray :=
  ⟨(fields.flatMap fun (width, value) => toLittleEndian width value).toArray⟩

/-- The name under which an entry is written. A directory is marked by a separator at the end. -/
def writtenName (entry : ArchiveEntry) : String :=
  match entry.content with
  | .directory =>
    if ArchiveEntry.namesDirectory entry.name then entry.name else entry.name ++ "/"
  | .file .. => entry.name

/-- An entry made ready: its name and contents as bytes, and what the directory says of them. -/
structure Packed where
  name : ByteArray
  flags : Nat
  method : Nat
  timestamp : Timestamp
  checksum : Nat
  size : Nat
  raw : ByteArray
  mode : Nat

namespace Packed

/-- The mark of a name in UTF-8, which plain ASCII does without. -/
def nameFlags (name : String) : Nat :=
  if name.toList.all (·.toNat < 0x80) then 0 else 0x800

def ofEntry (entry : ArchiveEntry) : Packed :=
  let name := writtenName entry
  let empty : Packed := {
    name := name.toUTF8
    flags := nameFlags name
    method := 0
    timestamp := entry.timestamp
    checksum := 0
    size := 0
    raw := ByteArray.empty
    mode := 0o40755 }
  match entry.content with
  | .directory => empty
  | .file bytes stored =>
    { empty with
      method := if stored then 0 else 8
      checksum := (crc32 bytes).toNat
      size := bytes.size
      raw := if stored then bytes else Deflate.store bytes
      mode := 0o100644 }

def sharedFields (p : Packed) : List (Nat × Nat) :=
  [(2, 20), (2, p.flags), (2, p.method), (2, p.timestamp.time.toNat), (2, p.timestamp.date.toNat),
    (4, p.checksum), (4, p.raw.size), (4, p.size), (2, p.name.size), (2, 0)]

def entryRecord (p : Packed) : ByteArray :=
  recordBytes ((4, Header.entryMark) :: p.sharedFields) ++ p.name

def directoryRecord (p : Packed) (offset : Nat) : ByteArray :=
  recordBytes ([(4, Header.mark), (2, 0x031E)] ++ p.sharedFields ++
    [(2, 0), (2, 0), (2, 0), (4, p.mode * 65536), (4, offset)]) ++ p.name

end Packed

/-- An archive in the making: entries written, and the directory of them. -/
structure Partial where
  entries : ByteArray := ByteArray.empty
  directory : ByteArray := ByteArray.empty
  count : Nat := 0

namespace Partial

def add (made : Partial) (entry : ArchiveEntry) : Partial :=
  let packed := Packed.ofEntry entry
  let record := packed.directoryRecord made.entries.size
  { entries := made.entries ++ packed.entryRecord ++ packed.raw
    directory := made.directory ++ record
    count := made.count + 1 }

/-- The wide end record and the pointer to it, needed if a number does not fit otherwise. -/
def wideEnd (made : Partial) : ByteArray :=
  let start := made.entries.size
  let length := made.directory.size
  if made.count < 0xFFFF ∧ start < 0xFFFFFFFF ∧ length < 0xFFFFFFFF then ByteArray.empty
  else
    recordBytes [(4, WideEndRecord.mark), (8, 44), (2, 0x031E), (2, 45), (4, 0), (4, 0),
      (8, made.count), (8, made.count), (8, length), (8, start),
      (4, WideEndRecord.locatorMark), (4, 0), (8, start + length), (4, 1)]

def finish (made : Partial) : ByteArray :=
  let start := made.entries.size
  let length := made.directory.size
  let count := min made.count 0xFFFF
  made.entries ++ made.directory ++ made.wideEnd ++
    recordBytes [(4, EndRecord.mark), (2, 0), (2, 0), (2, count), (2, count),
      (4, min length 0xFFFFFFFF), (4, min start 0xFFFFFFFF), (2, 0)]

end Partial

def write (entries : List ArchiveEntry) : ByteArray :=
  (entries.foldl Partial.add {}).finish

end MethodMetadata.Archive
