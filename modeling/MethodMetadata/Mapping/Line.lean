import MethodMetadata.Mapping.Escape
import MethodMetadata.Text.Split

/-! Lines of mapping files. A physical line that ends in an odd number of backslashes goes on in
the next one; comments and empty lines stand only where a line starts. -/
namespace MethodMetadata.Mapping

/-- Why a line cannot be read. -/
inductive LineFault
  | missingSeparator
  | malformedEscape (digits : String)
  | tooManyFields (value : String)
  deriving DecidableEq, Repr

def LineFault.message : LineFault → String
  | .missingSeparator => "Missing '=' separator"
  | .malformedEscape digits => "Malformed \\uxxxx escape '\\u" ++ digits ++ "'"
  | .tooManyFields value => s!"Expected at most two '|'-separated fields in '{value}'"

/-- A fault with the number of the physical line where its line starts. -/
structure Error where
  line : Nat
  fault : LineFault
  deriving DecidableEq, Repr

/-- What a line says. -/
inductive Line
  | comment (text : List Char)
  | entry (key value : List Char)
  deriving DecidableEq, Repr

def dropReturn (line : List Char) : List Char :=
  if line.getLast? = some '\r' then line.dropLast else line

/-- The physical lines of a text. The last one need not end in a line feed, and only a carriage
return in front of a line feed is part of the line's end. -/
def physicalLines (text : List Char) : List (List Char) :=
  let pieces := splitOn '\n' text
  let rest := pieces.getLast?.getD []
  pieces.dropLast.map dropReturn ++ (if rest.isEmpty then [] else [rest])

/-- Whether a line, held in reverse, goes on in the next one. -/
def continues (reversed : List Char) : Bool :=
  (reversed.takeWhile (· = '\\')).length % 2 == 1

/-- The value behind a key: blanks, the separator, and blanks again are skipped. -/
def valueOf? (rest : List Char) : Option (List Char) :=
  match rest.dropWhile isBlank with
  | '=' :: value => some (value.dropWhile isBlank)
  | ':' :: value => some (value.dropWhile isBlank)
  | _ => none

/-- Splits a line at the first separator or blank that is not escaped, behind the part of the
key already passed, which is held in reverse. -/
def splitEntryOnto? (key : List Char) (escaped : Bool) : List Char → Option (List Char × List Char)
  | [] => none
  | c :: rest =>
    if escaped then splitEntryOnto? (c :: key) false rest
    else if c = '\\' then splitEntryOnto? (c :: key) true rest
    else if c = '=' || c = ':' || isBlank c then (valueOf? (c :: rest)).map (key.reverse, ·)
    else splitEntryOnto? (c :: key) false rest

def splitEntry? (line : List Char) : Option (List Char × List Char) :=
  splitEntryOnto? [] false line

/-- Reads a whole line that is no comment. The key is looked at before the value. -/
def readEntry (line : List Char) : Except LineFault Line :=
  match splitEntry? line with
  | none => .error .missingSeparator
  | some (key, value) =>
    match unescape key with
    | .error digits => .error (.malformedEscape (String.ofList digits))
    | .ok key =>
      match unescape value with
      | .error digits => .error (.malformedEscape (String.ofList digits))
      | .ok value => .ok (.entry key value)

/-- A line that goes on: the number of its first physical line, and what there is of it so far,
in reverse and without the last backslash. -/
structure Pending where
  start : Nat
  reversed : List Char
  deriving DecidableEq, Repr

def readLinesOnto (read : List (Nat × Line)) (number : Nat) :
    Option Pending → List (List Char) → Except Error (List (Nat × Line))
  | none, [] => .ok read.reverse
  | some pending, [] => do
    let line ← (readEntry pending.reversed.reverse).mapError (Error.mk pending.start)
    return ((pending.start, line) :: read).reverse
  | pending, raw :: rest =>
    let text := raw.dropWhile isBlank
    match pending, text with
    | none, [] => readLinesOnto read (number + 1) none rest
    | none, '#' :: comment => readLinesOnto ((number, .comment comment) :: read) (number + 1) none rest
    | none, '!' :: comment => readLinesOnto ((number, .comment comment) :: read) (number + 1) none rest
    | _, _ =>
      let start := (pending.map (·.start)).getD number
      let reversed := text.reverse ++ (pending.map (·.reversed)).getD []
      if continues reversed then
        readLinesOnto read (number + 1) (some ⟨start, reversed.tail⟩) rest
      else
        match readEntry reversed.reverse with
        | .error fault => .error ⟨start, fault⟩
        | .ok line => readLinesOnto ((start, line) :: read) (number + 1) none rest

/-- The comments and entries of a text, each with the number of the physical line where it
starts. -/
def readLines (text : List Char) : Except Error (List (Nat × Line)) :=
  readLinesOnto [] 1 none (physicalLines text)

end MethodMetadata.Mapping
