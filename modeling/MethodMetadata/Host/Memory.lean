import MethodMetadata.Host.Basic
import MethodMetadata.Host.Place
import MethodMetadata.Text.Utf8

/-! A host in memory: files and directories around a working directory, and the text of the two
streams so far. -/
namespace MethodMetadata

/-- What a path leads to. -/
inductive Node
  | directory
  | file (bytes : ByteArray)
  /-- A file that stays empty, whatever is written. -/
  | sink
  /-- A file without room for a byte. -/
  | full
  /-- The stream of what is printed. -/
  | output
  /-- The stream of complaints. -/
  | complaints

/-- Nodes by place, where the next line of the log goes, and what the streams have taken. -/
structure Memory where
  nodes : List (Place × Node) := []
  logEnd : Nat := 0
  printed : String := ""
  complaints : String := ""

namespace Memory

def noSuchFile : Fault := .reported .notFound "No such file or directory (os error 2)"

def notDirectory : Fault := .reported .notADirectory "Not a directory (os error 20)"

def isDirectory : Fault := .reported .isADirectory "Is a directory (os error 21)"

def noSpace : Fault := .reported .other "No space left on device (os error 28)"

def noPosition : Fault := .reported .other "Illegal seek (os error 29)"

def nameTooLong : Fault := .reported .invalidInput "File name too long (os error 36)"

def topDirectories : List String :=
  ["bin", "boot", "dev", "etc", "home", "lib", "media", "mnt", "opt", "proc", "root", "run", "sbin",
    "srv", "sys", "tmp", "usr", "var"]

def devices : List (String × Node) :=
  [("null", .sink), ("zero", .sink), ("random", .sink), ("urandom", .sink), ("full", .full),
    ("stdout", .output), ("stderr", .complaints)]

/-- What is there without having been written. -/
def given? (place : Place) : Option Node :=
  match place.origin, place.names with
  | _, [] => some .directory
  | .top, [name] => if name ∈ topDirectories then some .directory else none
  | .top, ["dev", name] => devices.lookup name
  | _, _ => none

def node? (memory : Memory) (place : Place) : Option Node :=
  match memory.nodes.find? (·.1 = place) with
  | some entry => some entry.2
  | none => given? place

/-- Puts a node in the place of any other. -/
def put (memory : Memory) (place : Place) (node : Node) : Memory :=
  { memory with nodes := (place, node) :: memory.nodes.filter (·.1 ≠ place) }

/-- A name below a directory, unless it is too long. -/
def nameIn (place : Place) (name : String) : Except Fault Place :=
  if name.utf8ByteSize ≤ Path.maxNameSize then .ok (place.child name) else .error nameTooLong

def step (memory : Memory) (place : Place) : PathStep → Except Fault Place
  | .stay => .ok place
  | .up => .ok place.parent
  | .down name => do
    let place ← nameIn place name
    match memory.node? place with
    | none => .error noSuchFile
    | some .directory => .ok place
    | some _ => .error notDirectory

def pathOf (text : String) : Except Fault Path :=
  if text.utf8ByteSize > Path.maxSize then .error nameTooLong
  else if text.isEmpty then .error noSuchFile
  else .ok (Path.ofString text)

/-- What a path leads to. Steps to a name and on must lead through directories. -/
def find (memory : Memory) (text : String) : Except Fault Node := do
  let path ← pathOf text
  let place ← path.steps.dropLast.foldlM memory.step path.start
  match path.steps.getLast? with
  | none => return .directory
  | some (.down name) =>
    match memory.node? (← nameIn place name) with
    | none => .error noSuchFile
    | some .directory => return .directory
    | some node => if path.trailing then .error notDirectory else return node
  | some _ => return .directory

/-- The place of a file to be written. A slash behind its name would make it a directory. -/
def target (memory : Memory) (text : String) : Except Fault Place := do
  let path ← pathOf text
  let place ← path.steps.dropLast.foldlM memory.step path.start
  match path.steps.getLast? with
  | some (.down name) =>
    if path.trailing then .error isDirectory
    else
      let place ← nameIn place name
      match memory.node? place with
      | some .directory => .error isDirectory
      | _ => return place
  | _ => .error isDirectory

def read (memory : Memory) (text : String) : Except Fault ByteArray := do
  match ← memory.find text with
  | .file bytes => return bytes
  | .sink | .full => return ByteArray.empty
  | .output | .complaints => .error noPosition
  | .directory => .error isDirectory

def print (memory : Memory) (text : String) : Memory :=
  { memory with printed := memory.printed ++ text }

def complain (memory : Memory) (text : String) : Memory :=
  { memory with complaints := memory.complaints ++ text }

/-- Puts bytes where a file is or may be. A stream takes them as text. -/
def fill (memory : Memory) (place : Place) (bytes : ByteArray) : Except Fault Memory :=
  match memory.node? place with
  | some .sink => .ok memory
  | some .full => if bytes.isEmpty then .ok memory else .error noSpace
  | some .output => .ok (memory.print (Utf8.decodeLossy bytes.toList))
  | some .complaints => .ok (memory.complain (Utf8.decodeLossy bytes.toList))
  | _ => .ok (memory.put place (.file bytes))

def write (memory : Memory) (text : String) (bytes : ByteArray) : Except Fault (Place × Memory) := do
  let place ← memory.target text
  return (place, ← memory.fill place bytes)

/-- Bytes with others laid over them from a position on. Zeros fill a gap. -/
def overlay (bytes : ByteArray) (position : Nat) (added : ByteArray) : ByteArray :=
  bytes.extract 0 position ++ ⟨Array.replicate (position - bytes.size) 0⟩ ++ added ++
    bytes.extract (position + added.size) bytes.size

/-- Writes a line of the log into a file behind the last line, wherever the file now ends. What
cannot be written is left out. -/
def log (memory : Memory) (place : Place) (line : String) : Memory :=
  let added := (line ++ "\n").toUTF8
  let bytes := match memory.node? place with
    | some (.file bytes) => overlay bytes memory.logEnd added
    | _ => added
  match memory.fill place bytes with
  | .ok memory => { memory with logEnd := memory.logEnd + added.size }
  | .error _ => memory

def host : Host (StateM Memory) where
  canOpen path := fun memory => ((memory.find path).map fun _ => (), memory)
  read path := fun memory => (memory.read path, memory)
  write path bytes := fun memory =>
    match memory.write path bytes with
    | .ok (_, memory) => (.ok (), memory)
    | .error fault => (.error fault, memory)
  startLog path := fun memory =>
    match memory.write path ByteArray.empty with
    | .ok (place, memory) => (.ok fun line => modify (·.log place line), memory)
    | .error fault => (.error fault, memory)
  print line := modify (·.print (line ++ "\n"))
  complain line := modify (·.complain (line ++ "\n"))

end Memory

end MethodMetadata
