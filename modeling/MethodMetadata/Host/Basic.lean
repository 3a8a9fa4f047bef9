import MethodMetadata.Fault

/-! What a job needs of the system that it runs on: files by path, and two streams of lines. -/
namespace MethodMetadata

/-- Files and streams. -/
structure Host (m : Type → Type) where
  /-- Makes sure that a path can be opened for reading. -/
  canOpen : String → m (Except Fault Unit)
  /-- Reads a file. -/
  read : String → m (Except Fault ByteArray)
  /-- Writes a file in the place of any other with its path. -/
  write : String → ByteArray → m (Except Fault Unit)
  /-- Makes an empty file, and tells how lines are written into it, each behind the last. -/
  startLog : String → m (Except Fault (String → m Unit))
  /-- Writes a line of output. -/
  print : String → m Unit
  /-- Writes a line about the run. -/
  complain : String → m Unit

end MethodMetadata
