import MethodMetadata.FaultKind
import MethodMetadata.Name

/-! Type descriptors of class files: base types, references, fields and methods, each with
`render` and with a reader that accepts exactly the rendered forms. -/
namespace MethodMetadata

/-- Primitive types of values. -/
inductive BaseType
  | byte | char | double | float | int | long | short | boolean
  deriving DecidableEq, Repr

/-- Classes and arrays. An array has `extra` dimensions beyond the first. -/
inductive RefType
  | object (name : BinaryName)
  | objectArray (extra : Nat) (element : BinaryName)
  | primitiveArray (extra : Nat) (element : BaseType)
  deriving DecidableEq

/-- Types of fields, parameters and local variables. -/
inductive FieldType
  | base (type : BaseType)
  | ref (type : RefType)
  deriving DecidableEq

/-- The signature of a method; without a result type it is void. -/
structure MethodDescriptor where
  parameters : List FieldType
  result : Option FieldType
  deriving DecidableEq

/-- Why a text is not a descriptor. -/
inductive DescriptorError
  | invalidBase (c : Char)
  | missingBase
  | unterminatedName (read : String)
  | objectExpected
  | badName (fault : NameError)
  | invalidReference (c : Char)
  | missingType
  | invalidField (c : Char)
  | parenthesisExpected
  | leftover (c : Char)
  deriving DecidableEq, Repr

namespace DescriptorError

def kind : DescriptorError → FaultKind
  | .missingBase | .unterminatedName _ | .missingType => .unexpectedEnd
  | _ => .invalidInput

def message : DescriptorError → String
  | .invalidBase c => s!"Invalid base type character '{c}'"
  | .missingBase => "Missing base type character"
  | .unterminatedName read => s!"Missing terminator for 'L{read}'"
  | .objectExpected => "Expected object type to start with `L`"
  | .badName fault => fault.message
  | .invalidReference c => s!"Invalid reference type character '{c}'"
  | .missingType => "Missing field type"
  | .invalidField c => s!"Invalid field type character '{c}'"
  | .parenthesisExpected => "Expected '(' for method"
  | .leftover c => s!"Unexpected leftover input '{c}'"

end DescriptorError

namespace BaseType

def letter : BaseType → Char
  | .byte => 'B'
  | .char => 'C'
  | .double => 'D'
  | .float => 'F'
  | .int => 'I'
  | .long => 'J'
  | .short => 'S'
  | .boolean => 'Z'

def ofLetter? : Char → Option BaseType
  | 'B' => some .byte
  | 'C' => some .char
  | 'D' => some .double
  | 'F' => some .float
  | 'I' => some .int
  | 'J' => some .long
  | 'S' => some .short
  | 'Z' => some .boolean
  | _ => none

def width : BaseType → Nat
  | .double | .long => 2
  | _ => 1

end BaseType

namespace Descriptor

/-- A reader takes a value from the front of a text and leaves the rest. -/
abbrev Reader (α : Type) := List Char → Except DescriptorError (α × List Char)

def whole {α : Type} (read : Reader α) (text : String) : Except DescriptorError α :=
  match read text.toList with
  | .error e => .error e
  | .ok (value, []) => .ok value
  | .ok (_, c :: _) => .error (.leftover c)

def renderBase (type : BaseType) : List Char :=
  [type.letter]

def renderClass (name : BinaryName) : List Char :=
  'L' :: (name.text.toList ++ [';'])

def renderRef : RefType → List Char
  | .object name => renderClass name
  | .objectArray extra element => List.replicate (extra + 1) '[' ++ renderClass element
  | .primitiveArray extra element => List.replicate (extra + 1) '[' ++ renderBase element

def renderField : FieldType → List Char
  | .base type => renderBase type
  | .ref type => renderRef type

def renderResult : Option FieldType → List Char
  | none => ['V']
  | some type => renderField type

def renderMethod (d : MethodDescriptor) : List Char :=
  '(' :: (d.parameters.flatMap renderField ++ ')' :: renderResult d.result)

def readBase : Reader BaseType
  | [] => .error .missingBase
  | c :: rest =>
    match BaseType.ofLetter? c with
    | some type => .ok (type, rest)
    | none => .error (.invalidBase c)

def readNameOnto (read : List Char) : Reader BinaryName
  | [] => .error (.unterminatedName (String.ofList read.reverse))
  | c :: rest =>
    if c = ';' then
      match BinaryName.ofString (String.ofList read.reverse) with
      | .ok name => .ok (name, rest)
      | .error fault => .error (.badName fault)
    else readNameOnto (c :: read) rest

def readClass : Reader BinaryName
  | 'L' :: rest => readNameOnto [] rest
  | _ => .error .objectExpected

def readElement (extra : Nat) (text : List Char) : Except DescriptorError (RefType × List Char) :=
  match text with
  | 'L' :: _ =>
    match readClass text with
    | .ok (name, rest) => .ok (.objectArray extra name, rest)
    | .error e => .error e
  | _ =>
    match readBase text with
    | .ok (type, rest) => .ok (.primitiveArray extra type, rest)
    | .error e => .error e

def readArray (extra : Nat) : Reader RefType
  | '[' :: rest => readArray (extra + 1) rest
  | text => readElement extra text

def readRef : Reader RefType
  | [] => .error .missingType
  | '[' :: rest => readArray 0 rest
  | 'L' :: rest =>
    match readClass ('L' :: rest) with
    | .ok (name, rest) => .ok (.object name, rest)
    | .error e => .error e
  | c :: _ => .error (.invalidReference c)

def readField : Reader FieldType
  | [] => .error .missingType
  | c :: rest =>
    match BaseType.ofLetter? c with
    | some type => .ok (.base type, rest)
    | none =>
      if c = 'L' ∨ c = '[' then
        match readRef (c :: rest) with
        | .ok (type, rest) => .ok (.ref type, rest)
        | .error e => .error e
      else .error (.invalidField c)

/-- Reads parameter types up to the closing parenthesis, behind those read before, which are
held in reverse. A type takes a character, so no text holds more types than characters. -/
def readParametersOnto (read : List FieldType) : Nat → Reader (List FieldType)
  | _, ')' :: rest => .ok (read.reverse, rest)
  | 0, _ => .error .missingType
  | most + 1, text =>
    match readField text with
    | .ok (type, rest) => readParametersOnto (type :: read) most rest
    | .error e => .error e

def readResult : Reader (Option FieldType)
  | 'V' :: rest => .ok (none, rest)
  | text =>
    match readField text with
    | .ok (type, rest) => .ok (some type, rest)
    | .error e => .error e

def readMethod : Reader MethodDescriptor
  | '(' :: rest =>
    match readParametersOnto [] rest.length rest with
    | .error e => .error e
    | .ok (parameters, rest) =>
      match readResult rest with
      | .error e => .error e
      | .ok (result, rest) => .ok (⟨parameters, result⟩, rest)
  | _ => .error .parenthesisExpected

end Descriptor

namespace BaseType

def render (type : BaseType) : String :=
  String.ofList (Descriptor.renderBase type)

def parse : String → Except DescriptorError BaseType :=
  Descriptor.whole Descriptor.readBase

end BaseType

namespace BinaryName

def render (name : BinaryName) : String :=
  String.ofList (Descriptor.renderClass name)

def parse : String → Except DescriptorError BinaryName :=
  Descriptor.whole Descriptor.readClass

end BinaryName

namespace RefType

def render (type : RefType) : String :=
  String.ofList (Descriptor.renderRef type)

def parse : String → Except DescriptorError RefType :=
  Descriptor.whole Descriptor.readRef

end RefType

namespace FieldType

def render (type : FieldType) : String :=
  String.ofList (Descriptor.renderField type)

def parse : String → Except DescriptorError FieldType :=
  Descriptor.whole Descriptor.readField

def object (name : BinaryName) : FieldType :=
  .ref (.object name)

def width : FieldType → Nat
  | .base type => type.width
  | .ref _ => 1

end FieldType

namespace MethodDescriptor

def render (d : MethodDescriptor) : String :=
  String.ofList (Descriptor.renderMethod d)

def parse : String → Except DescriptorError MethodDescriptor :=
  Descriptor.whole Descriptor.readMethod

end MethodDescriptor

end MethodMetadata
