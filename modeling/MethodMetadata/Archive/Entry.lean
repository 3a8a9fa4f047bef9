/-! The entries of an archive: directories and files, each with a name and a time stamp. -/
namespace MethodMetadata

/-- A date and a time of day in the two words in which archives keep them. Nothing checks that
there is such a day. -/
structure Timestamp where
  date : UInt16
  time : UInt16
  deriving DecidableEq, Repr

namespace Timestamp

/-- Packs a time. Seconds are kept in pairs, and years are counted from 1980. -/
def pack (year month day hour minute second : Nat) : Timestamp where
  date := UInt16.ofNat ((year - 1980) * 512 + month * 32 + day)
  time := UInt16.ofNat (hour * 2048 + minute * 32 + second / 2)

/-- Year, month, day, hour, minute and second. -/
def fields (t : Timestamp) : List Nat :=
  let date := t.date.toNat
  let time := t.time.toNat
  [1980 + date / 512, date / 32 % 16, date % 32, time / 2048, time / 32 % 64, time % 32 * 2]

end Timestamp

/-- What an entry holds. A file may be kept as it is or compressed. -/
inductive EntryContent
  | directory
  | file (bytes : ByteArray) (stored : Bool)

instance : DecidableEq EntryContent
  | .directory, .directory => isTrue rfl
  | .directory, .file .. => isFalse nofun
  | .file .., .directory => isFalse nofun
  | .file ⟨bytes⟩ stored, .file ⟨bytes'⟩ stored' =>
    decidable_of_iff (bytes = bytes' ∧ stored = stored') (by simp)

/-- A directory or a file of an archive. -/
structure ArchiveEntry where
  name : String
  timestamp : Timestamp
  content : EntryContent
  deriving DecidableEq

namespace ArchiveEntry

def namesDirectory (name : String) : Bool :=
  match name.toList.getLast? with
  | some c => c = '/' || c = '\\'
  | none => false

/-- Whether a file is a class to be processed. Names that start with a dot are left out. -/
def isClass (name : String) : Bool :=
  ".class".toList.isSuffixOf name.toList && name.toList.head? ≠ some '.'

end ArchiveEntry

end MethodMetadata
