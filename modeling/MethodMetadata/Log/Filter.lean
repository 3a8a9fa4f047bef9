import MethodMetadata.Log.Record
import MethodMetadata.Pattern.Compiling
import MethodMetadata.Text.Blank
import MethodMetadata.Text.Split

/-! Filters that choose which log records are written. A filter is given by directives with
commas between them: a level, the name of a part, or a part with its own level. -/
namespace MethodMetadata

/-- How much is written of what a part of the program notes, which is all parts if no name is
given. A limit of zero is for nothing at all. -/
structure LogDirective where
  name : Option String
  limit : Nat
  deriving DecidableEq, Repr

/-- Directives, and a pattern that messages must match. -/
structure LogFilter where
  directives : List LogDirective
  required : Option Pattern
  deriving DecidableEq, Repr

namespace LogDirective

def noLimit : Nat := LogLevel.trace.rank

/-- The limit that a word names, in letters of either case. -/
def limit? (word : List Char) : Option Nat :=
  let word := String.ofList (word.map Char.toUpper)
  if word = "OFF" then some 0
  else
    ([LogLevel.error, .warn, .info, .debug, .trace].find? (·.name = word)).map (·.rank)

/-- The length of the name; of two directives for a record the longer one counts. -/
def length (d : LogDirective) : Nat :=
  (d.name.map (·.utf8ByteSize)).getD 0

def covers (d : LogDirective) (path : String) : Bool :=
  match d.name with
  | none => true
  | some name => name.toList.isPrefixOf path.toList

def read (text : List Char) : Except String LogDirective :=
  match splitOn '=' text with
  | [word] =>
    match limit? word with
    | some limit => .ok ⟨none, limit⟩
    | none => .ok ⟨some (String.ofList word), noLimit⟩
  | [name, word] =>
    let word := trimWhiteSpace word
    if word.isEmpty then .ok ⟨some (String.ofList name), noLimit⟩
    else
      match limit? word with
      | some limit => .ok ⟨some (String.ofList name), limit⟩
      | none => .error (String.ofList word)
  | _ => .error (String.ofList text)

end LogDirective

namespace LogFilter

/-- Puts a directive in the place of another with its name, or behind all others. -/
def put (directives : List LogDirective) (d : LogDirective) : List LogDirective :=
  if directives.any (·.name = d.name) then
    directives.map fun other => if other.name = d.name then d else other
  else directives ++ [d]

def warning (text : String) : String :=
  s!"warning: invalid logging spec '{text}', ignoring it"

def add (state : List LogDirective × List String) (text : List Char) :
    List LogDirective × List String :=
  let text := trimWhiteSpace text
  if text.isEmpty then state
  else
    match LogDirective.read text with
    | .ok d => (put state.1 d, state.2)
    | .error found => (state.1, state.2 ++ [warning found])

def patternWarning (text : String) (error : Pattern.Error) : String :=
  "warning: invalid regex filter - " ++ error.message text.toList

/-- Reads a filter: directives, and behind a slash the pattern that messages must match. What is
not understood is left out with a warning. -/
def read (text : String) : LogFilter × List String :=
  match splitOn '/' text.toList with
  | [directives] =>
    let (directives, warnings) := (splitOn ',' directives).foldl add ([], [])
    (⟨directives, none⟩, warnings)
  | [directives, required] =>
    let (directives, warnings) := (splitOn ',' directives).foldl add ([], [])
    let required := String.ofList required
    match Pattern.read required with
    | .ok pattern => (⟨directives, some pattern⟩, warnings)
    | .error e => (⟨directives, none⟩, warnings ++ [patternWarning required e])
  | _ => (⟨[], none⟩, [warning text ++ " (too many '/'s)"])

/-- The directive that decides on a part: the longest that covers it, and of several the last. -/
def deciding? (filter : LogFilter) (path : String) : Option LogDirective :=
  (filter.directives.filter (·.covers path)).foldl
    (fun best d =>
      match best with
      | none => some d
      | some b => if b.length ≤ d.length then some d else some b)
    none

/-- How much is written of what a part notes. Without directives that is errors. -/
def limitFor (filter : LogFilter) (path : String) : Nat :=
  if filter.directives.isEmpty then LogLevel.error.rank
  else ((filter.deciding? path).map (·.limit)).getD 0

def admits (filter : LogFilter) (record : LogRecord) : Bool :=
  decide (record.level.rank ≤ filter.limitFor record.source.path) &&
    match filter.required with
    | none => true
    | some pattern => pattern.occursIn record.message

def lines (filter : LogFilter) (records : List LogRecord) : List String :=
  (records.filter filter.admits).map (·.line)

end LogFilter

end MethodMetadata
