import MethodMetadata.Injector.Basic

/-! The command line. Arguments are taken one after the other, so that a question for help or
for the version is answered unless something in front of it is wrong. -/
namespace MethodMetadata

/-- The options of the program that take a value. -/
inductive OptionName
  | log | outputMap | index | namespacePrefix
  deriving DecidableEq, Repr

namespace OptionName

def text : OptionName → String
  | .log => "log"
  | .outputMap => "outmap"
  | .index => "index"
  | .namespacePrefix => "namespace"

def ofText? (word : String) : Option OptionName :=
  [log, outputMap, index, namespacePrefix].find? (·.text = word)

end OptionName

/-- Why arguments make no sense. -/
inductive UsageError
  | unknown (argument : String)
  | missingValue (option : OptionName)
  | unwantedValue (argument : String)
  | repeated (option : OptionName)
  | badIndex (value : String)
  | emptyPath
  | missingPath
  | tooManyPaths (argument : String)
  deriving DecidableEq, Repr

def UsageError.message : UsageError → String
  | .unknown argument => s!"error: unexpected argument '{argument}' found"
  | .missingValue option => s!"error: a value is required for '--{option.text}' but none was supplied"
  | .unwantedValue argument => s!"error: unexpected value in '{argument}'"
  | .repeated option => s!"error: the argument '--{option.text}' cannot be used multiple times"
  | .badIndex value => s!"error: invalid value '{value}' for '--index'"
  | .emptyPath => "error: a path is required but none was supplied"
  | .missingPath => "error: INPUT, OUTPUT and MAPFILE are required"
  | .tooManyPaths argument => s!"error: unexpected argument '{argument}' found"

/-- What a job reads and writes, and its settings. -/
structure JobOptions where
  input : String
  output : String
  mapFile : String
  log : Option String := none
  outputMap : Option String := none
  settings : Settings := {}
  deriving DecidableEq, Repr

/-- What the program is asked to do. -/
inductive Command
  | run (options : JobOptions)
  | help
  | version
  deriving DecidableEq, Repr

namespace CommandLine

/-- Arguments taken so far; paths are held in reverse. -/
structure Taken where
  paths : List String := []
  values : List (OptionName × String) := []
  deriving DecidableEq, Repr

/-- A number of thirty-two bits, which may have a sign. -/
def index? (text : String) : Option UInt32 :=
  match text.toList with
  | '-' :: digits => if Number.ofDigits? digits = some 0 then some 0 else none
  | text => Number.uint32? text

def valueFault? (option : OptionName) (value : String) : Option UsageError :=
  match option with
  | .log | .outputMap => if value.isEmpty then some .emptyPath else none
  | .index => if (index? value).isNone then some (.badIndex value) else none
  | .namespacePrefix => none

namespace Taken

def value? (taken : Taken) (option : OptionName) : Option String :=
  (taken.values.find? (·.1 = option)).map (·.2)

/-- Takes the value of an option, which must be its only one. -/
def addValue (taken : Taken) (option : OptionName) (value : String) : Except UsageError Taken :=
  if (taken.value? option).isSome then .error (.repeated option)
  else
    match valueFault? option value with
    | some fault => .error fault
    | none => .ok { taken with values := (option, value) :: taken.values }

/-- Takes a path. There is room for three. -/
def addPath (taken : Taken) (path : String) : Except UsageError Taken :=
  if taken.paths.length ≥ 3 then .error (.tooManyPaths path)
  else if path.isEmpty then .error .emptyPath
  else .ok { taken with paths := path :: taken.paths }

def finish (taken : Taken) : Except UsageError Command :=
  match taken.paths with
  | [mapFile, output, input] =>
    let settings : Settings := { initialIndex := ((taken.value? .index).bind index?).getD 0 }
    .ok (.run {
      input := input
      output := output
      mapFile := mapFile
      log := taken.value? .log
      outputMap := taken.value? .outputMap
      settings :=
        match taken.value? .namespacePrefix with
        | none => settings
        | some text => { settings with managedNamespace := text } })
  | _ => .error .missingPath

end Taken

/-- What an argument looks like. A dash alone is a path, and so is an argument without dashes. -/
inductive Shape
  | path
  | separator
  | long (name : List Char) (value : Option (List Char))
  | short (letters : List Char)
  deriving DecidableEq, Repr

/-- Tells arguments apart by their dashes. -/
def shape (argument : String) : Shape :=
  match argument.toList with
  | ['-', '-'] => .separator
  | '-' :: '-' :: text =>
    let name := text.takeWhile (· ≠ '=')
    match text.drop name.length with
    | [] => .long name none
    | _ :: value => .long name (some value)
  | '-' :: c :: letters => .short (c :: letters)
  | _ => .path

/-- Takes arguments up to the last one, or up to a question. Behind two dashes all are paths. -/
def takeAll (taken : Taken) : List String → Except UsageError Command
  | [] => taken.finish
  | argument :: rest =>
    match shape argument with
    | .path =>
      match taken.addPath argument with
      | .ok taken => takeAll taken rest
      | .error e => .error e
    | .separator => (rest.foldlM Taken.addPath taken).bind Taken.finish
    | .short ('h' :: _) => .ok .help
    | .short ('V' :: _) => .ok .version
    | .short _ => .error (.unknown argument)
    | .long name value =>
      let name := String.ofList name
      if name = "help" ∨ name = "version" then
        if value.isSome then .error (.unwantedValue argument)
        else .ok (if name = "help" then .help else .version)
      else
        match OptionName.ofText? name, value, rest with
        | none, _, _ => .error (.unknown argument)
        | some option, some value, rest =>
          match taken.addValue option (String.ofList value) with
          | .ok taken => takeAll taken rest
          | .error e => .error e
        | some option, none, value :: rest =>
          if shape value = .path then
            match taken.addValue option value with
            | .ok taken => takeAll taken rest
            | .error e => .error e
          else .error (.missingValue option)
        | some option, none, [] => .error (.missingValue option)

def parse (arguments : List String) : Except UsageError Command :=
  takeAll {} arguments

end CommandLine

end MethodMetadata
