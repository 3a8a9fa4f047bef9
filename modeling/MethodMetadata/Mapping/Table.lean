import Std.Data.ExtTreeMap
import MethodMetadata.Mapping.Line
import MethodMetadata.Text.Number

/-! Mapping tables: the exceptions and parameter names of methods by signature key. They are
written in the order of their keys, and the written text reads back. -/
namespace MethodMetadata

/-- Exceptions and parameter names as comma lists. Without parameters the names of a method are
not spoken for; with the empty list it is to have none. -/
structure MappingEntry where
  exceptions : String
  parameters : Option String
  deriving DecidableEq, Repr, Inhabited

namespace MappingEntry

/-- Reads a value of one or two fields. -/
def parse (value : String) : Except Mapping.LineFault MappingEntry :=
  match splitOn '|' value.toList with
  | [exceptions] => .ok ⟨String.ofList exceptions, none⟩
  | [exceptions, parameters] => .ok ⟨String.ofList exceptions, some (String.ofList parameters)⟩
  | _ => .error (.tooManyFields value)

def text (entry : MappingEntry) : String :=
  match entry.parameters with
  | none => entry.exceptions
  | some parameters => entry.exceptions ++ "|" ++ parameters

end MappingEntry

/-- Entries by key, and the index that a comment has recorded. -/
structure MappingTable where
  entries : Std.ExtTreeMap String MappingEntry
  maxIndex : Option UInt32

namespace MappingTable

def empty : MappingTable := ⟨∅, none⟩

def size (table : MappingTable) : Nat :=
  table.entries.size

def get? (table : MappingTable) (key : String) : Option MappingEntry :=
  table.entries[key]?

def insert (table : MappingTable) (key : String) (entry : MappingEntry) : MappingTable :=
  { table with entries := table.entries.insert key entry }

def toList (table : MappingTable) : List (String × MappingEntry) :=
  table.entries.toList

def maxIndexMark : String := "max index="

def recordedIndex? (comment : List Char) : Option UInt32 :=
  let text := trimWhiteSpace comment
  if maxIndexMark.toList.isPrefixOf text then
    Number.uint32? (trimWhiteSpace (text.drop maxIndexMark.toList.length))
  else none

def addLine (table : MappingTable) (line : Nat × Mapping.Line) : Except Mapping.Error MappingTable :=
  match line.2 with
  | .comment comment =>
    match recordedIndex? comment with
    | some index => .ok { table with maxIndex := some index }
    | none => .ok table
  | .entry key value =>
    match MappingEntry.parse (String.ofList value) with
    | .ok entry => .ok (table.insert (String.ofList key) entry)
    | .error fault => .error ⟨line.1, fault⟩

/-- Reads a mapping file. Of several lines with a key the last one counts. -/
def parse (text : String) : Except Mapping.Error MappingTable := do
  (← Mapping.readLines text.toList).foldlM addLine empty

def renderEntry (line : String × MappingEntry) : List Char :=
  Mapping.escapeKey line.1.toList ++ '=' :: (Mapping.escapeValue line.2.text.toList ++ ['\n'])

/-- The text of a table behind an optional comment. -/
def render (table : MappingTable) (header : Option String) : String :=
  let comment := match header with
    | none => []
    | some text => '#' :: (text.toList ++ ['\n'])
  String.ofList (comment ++ table.toList.flatMap renderEntry)

def maxIndexHeader (index : UInt32) : String :=
  maxIndexMark ++ toString index

end MappingTable

end MethodMetadata
