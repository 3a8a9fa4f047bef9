import MethodMetadata.AccessFlags
import MethodMetadata.ClassFile.Basic
import MethodMetadata.Editable.Code

/-! Methods with name, descriptor, declared exceptions and body opened up. -/
namespace MethodMetadata

/-- A method; it declares no exceptions if the list is empty, and has no body if it is abstract
or native. -/
structure Method where
  flags : UInt16
  name : UnqualifiedName
  descriptor : String
  exceptions : List BinaryName
  code : Option Code
  attributes : List Attribute
  deriving DecidableEq

/-- What an attribute of a method contributes. -/
inductive MethodPart
  | code (body : Code)
  | exceptions (names : List BinaryName)
  | other (attr : Attribute)
  deriving DecidableEq

namespace MethodPart

/-- Tells attributes apart by name. Only the first body is opened up. -/
def ofAttribute (pool : ConstantPool) (bodySeen : Bool) (attr : Attribute) :
    Except ClassFileError MethodPart := do
  let name ← pool.text attr.nameIndex
  if name = Attribute.codeName ∧ ¬bodySeen then
    let stored ← (CodeAttribute.format.readAll Attribute.codeName attr.info).mapError
      ClassFileError.malformed
    return .code (← Code.ofAttribute pool stored)
  else if name = Attribute.exceptionsName then
    let classes ← (Attribute.exceptionsFormat.readAll Attribute.exceptionsName attr.info).mapError
      ClassFileError.malformed
    return .exceptions (← classes.mapM pool.binaryName)
  else return .other attr

def code? : MethodPart → Option Code
  | .code body => some body
  | _ => none

def names : MethodPart → List BinaryName
  | .exceptions names => names
  | _ => []

def other? : MethodPart → Option Attribute
  | .other attr => some attr
  | _ => none

def listOnto (pool : ConstantPool) (found : List MethodPart) (bodySeen : Bool) :
    List Attribute → Except ClassFileError (List MethodPart)
  | [] => .ok found.reverse
  | attr :: rest =>
    match ofAttribute pool bodySeen attr with
    | .error e => .error e
    | .ok part => listOnto pool (part :: found) (bodySeen || part.code?.isSome) rest

end MethodPart

namespace Method

def isStatic (m : Method) : Bool :=
  AccessFlags.contains m.flags AccessFlags.staticBit

def ofMember (pool : ConstantPool) (stored : Member) : Except ClassFileError Method := do
  let name ← pool.text stored.nameIndex
  let name ← (UnqualifiedName.ofString name).mapError fun fault => ClassFileError.badName fault.message
  let descriptor ← pool.text stored.descriptorIndex
  let parts ← MethodPart.listOnto pool [] false stored.attributes
  return {
    flags := stored.flags
    name := name
    descriptor := descriptor
    exceptions := parts.flatMap MethodPart.names
    code := parts.findSome? MethodPart.code?
    attributes := parts.filterMap MethodPart.other? }

def internCode : Option Code → Interning (List Attribute)
  | none => return []
  | some code => do
    let stored ← code.toAttribute
    let attr ← ConstantPool.internAttribute Attribute.codeName (CodeAttribute.format.write stored)
    return [attr]

def internExceptions (names : List BinaryName) : Interning (List Attribute) := do
  if names.isEmpty then return []
  else
    let classes ← names.mapM fun name => ConstantPool.internClass name.text
    let attr ← ConstantPool.internAttribute Attribute.exceptionsName
      (Attribute.exceptionsFormat.write classes)
    return [attr]

/-- The method to store: the body first, then the exceptions and all other attributes. -/
def toMember (m : Method) : Interning Member := do
  let nameIndex ← ConstantPool.internText m.name.text
  let descriptorIndex ← ConstantPool.internText m.descriptor
  let code ← internCode m.code
  let exceptions ← internExceptions m.exceptions
  return ⟨m.flags, nameIndex, descriptorIndex, code ++ exceptions ++ m.attributes⟩

end Method

end MethodMetadata
