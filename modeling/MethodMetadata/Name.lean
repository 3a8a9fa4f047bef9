import MethodMetadata.Text.Split

/-! Names in class files: unqualified names of methods and fields, and binary names of classes,
which are unqualified names with slashes between them. -/
namespace MethodMetadata

/-- Why a text is not a name. -/
inductive NameError
  | illegalCharacter (name : String)
  | emptyUnqualified
  | emptyBinary
  deriving DecidableEq, Repr

def NameError.message : NameError → String
  | .illegalCharacter name => s!"Unqualified name '{name}' contains an illegal character"
  | .emptyUnqualified => "Unqualified name '' is empty"
  | .emptyBinary => "Binary name '' is empty"

/-- Characters that separate names from each other and from what surrounds them. -/
def isNameSeparator (c : Char) : Bool :=
  c = '.' || c = ';' || c = '[' || c = '/'

def unqualifiedFault? (text : List Char) : Option NameError :=
  if text.any isNameSeparator then some (.illegalCharacter (String.ofList text))
  else if text.isEmpty then some .emptyUnqualified
  else none

/-- What keeps a text from being a binary name: the fault of its first faulty piece. -/
def binaryFault? (text : List Char) : Option NameError :=
  if text.isEmpty then some .emptyBinary
  else (splitOn '/' text).findSome? unqualifiedFault?

/-- The name of a method, field or local variable. -/
structure UnqualifiedName where
  text : String
  valid : unqualifiedFault? text.toList = none
  deriving DecidableEq

/-- The name of a class or interface, such as `java/lang/Object`. -/
structure BinaryName where
  text : String
  valid : binaryFault? text.toList = none
  deriving DecidableEq

namespace UnqualifiedName

def ofString (text : String) : Except NameError UnqualifiedName :=
  match h : unqualifiedFault? text.toList with
  | none => .ok ⟨text, h⟩
  | some fault => .error fault

def constructor : UnqualifiedName := ⟨"<init>", by decide⟩

def this : UnqualifiedName := ⟨"this", by decide⟩

end UnqualifiedName

namespace BinaryName

def ofString (text : String) : Except NameError BinaryName :=
  match h : binaryFault? text.toList with
  | none => .ok ⟨text, h⟩
  | some fault => .error fault

def object : BinaryName := ⟨"java/lang/Object", by decide⟩

/-- Whether a name starts with a namespace such as `net/minecraft/`. -/
def isWithin (name : BinaryName) (namespacePrefix : String) : Bool :=
  namespacePrefix.toList.isPrefixOf name.text.toList

end BinaryName

end MethodMetadata
