import MethodMetadata.Archive.Crc32
import MethodMetadata.Archive.Directory
import MethodMetadata.Deflate.Inflate
import MethodMetadata.Injector.Error

/-! Reading the entries of an archive. The directory is read first and must be sound; an entry
that cannot be read matters only once its turn comes. -/
namespace MethodMetadata.Archive

/-- How the contents of a file are kept. -/
inductive Compression
  | stored
  | deflated
  deriving DecidableEq, Repr

def Compression.ofNumber? : Nat → Option Compression
  | 0 => some .stored
  | 8 => some .deflated
  | _ => none

/-- The positions of an archive in memory are numbers of sixty-four bits. -/
def memoryReach : Nat := UInt64.size

/-- The positions of a file are numbers of sixty-four bits with a sign. -/
def fileReach : Nat := UInt64.size / 2

def outOfReach : Fault := .reported .invalidInput "Invalid argument (os error 22)"

namespace Header

def entryMark : Nat := 0x04034B50

/-- The position of the contents, behind the name and the extra fields given there. -/
def contentScan : Scan Nat := do
  let found ← Scan.number 4
  if found ≠ entryMark then throw .badEntryHeader
  Scan.skip 22
  let nameLength ← Scan.number 2
  let extraLength ← Scan.number 2
  Scan.skip (nameLength + extraLength)
  get

/-- The method and the raw contents of an entry, as much of them as is there. -/
def locate (reach : Nat) (bytes : ByteArray) (header : Header) :
    Except ArchiveError (Compression × ByteArray) := do
  if header.encrypted then throw .encrypted
  if reach ≤ header.offset then throw (.fault outOfReach)
  let start ← contentScan.runAt bytes header.offset
  match Compression.ofNumber? header.method with
  | none => throw .unknownMethod
  | some method =>
    if header.aes then throw .encrypted
    return (method, bytes.extract start (start + header.compressedSize))

def unpack (header : Header) (method : Compression) (raw : ByteArray) : Except Fault ByteArray := do
  let bytes ← match method with
    | .stored => pure raw
    | .deflated => Deflate.inflate raw
  if crc32 bytes = header.checksum then return bytes else throw .badChecksum

/-- Reads an entry. The contents of a directory are not looked at. -/
def readEntry (reach : Nat) (bytes : ByteArray) (header : Header) :
    Except InjectionError ArchiveEntry := do
  let (method, raw) ← (header.locate reach bytes).mapError .archive
  if ArchiveEntry.namesDirectory header.name then
    return ⟨header.name, header.timestamp, .directory⟩
  else
    let contents ← (header.unpack method raw).mapError
      (.file ("Could not read " ++ header.name))
    return ⟨header.name, header.timestamp, .file contents (method = .stored)⟩

end Header

/-- Reads an archive whose positions from `reach` on cannot be gone to: its entries, or what is
wrong with them, in the order of the directory. -/
def readWithin (reach : Nat) (bytes : ByteArray) :
    Except ArchiveError (List (Except InjectionError ArchiveEntry)) :=
  (readDirectory reach bytes).map fun headers => headers.map (Header.readEntry reach bytes)

def read (bytes : ByteArray) : Except ArchiveError (List (Except InjectionError ArchiveEntry)) :=
  readWithin memoryReach bytes

def readFile (bytes : ByteArray) : Except ArchiveError (List (Except InjectionError ArchiveEntry)) :=
  readWithin fileReach bytes

end MethodMetadata.Archive
