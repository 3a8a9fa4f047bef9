import MethodMetadata.Editable.LocalVariable

/-! Method bodies with their local variables opened up. The bytecode stays bytes, so that all
offsets into it stay valid. -/
namespace MethodMetadata

/-- A method body: the rows of all local variable tables in order, the local variable type
tables as they are, and all other attributes as they are. -/
structure Code where
  maxStack : UInt16
  maxLocals : UInt16
  bytecode : List UInt8
  handlers : List ExceptionHandler
  locals : List LocalVariable
  localTypes : List Attribute
  attributes : List Attribute
  deriving DecidableEq, Repr

/-- What an attribute of a method body contributes. -/
inductive CodePart
  | locals (rows : List LocalVariable)
  | localTypes (attr : Attribute)
  | other (attr : Attribute)
  deriving DecidableEq, Repr

namespace CodePart

/-- Tells attributes apart by name and opens the local variable tables. -/
def ofAttribute (pool : ConstantPool) (attr : Attribute) : Except ClassFileError CodePart := do
  let name ← pool.text attr.nameIndex
  if name = Attribute.localsName then
    let entries ← (LocalEntry.tableFormat.readAll Attribute.localsName attr.info).mapError
      ClassFileError.malformed
    return .locals (← entries.mapM (LocalVariable.ofEntry pool))
  else if name = Attribute.localTypesName then return .localTypes attr
  else return .other attr

def rows : CodePart → List LocalVariable
  | .locals rows => rows
  | _ => []

def localTypes? : CodePart → Option Attribute
  | .localTypes attr => some attr
  | _ => none

def other? : CodePart → Option Attribute
  | .other attr => some attr
  | _ => none

end CodePart

namespace ConstantPool

/-- An attribute of a given name; the name is added before the contents are looked at. -/
def internAttribute (name : String) (info : Except Fault (List UInt8)) : Interning Attribute := do
  let nameIndex ← internText name
  match info with
  | .ok info => return ⟨nameIndex, info⟩
  | .error fault => throw (.malformed fault)

end ConstantPool

namespace Code

def startLabel (_ : Code) : UInt16 := 0

def endLabel (code : Code) : UInt16 :=
  UInt16.ofNat code.bytecode.length

/-- Puts other local variables in the place of all there are. The type tables go too, since
they describe the same slots and ranges. -/
def replaceLocals (code : Code) (locals : List LocalVariable) : Code :=
  { code with locals := locals, localTypes := [] }

def ofAttribute (pool : ConstantPool) (stored : CodeAttribute) : Except ClassFileError Code :=
  if stored.bytecode.length ≤ 65535 then do
    let parts ← stored.attributes.mapM (CodePart.ofAttribute pool)
    return {
      maxStack := stored.maxStack
      maxLocals := stored.maxLocals
      bytecode := stored.bytecode
      handlers := stored.handlers
      locals := parts.flatMap CodePart.rows
      localTypes := parts.filterMap CodePart.localTypes?
      attributes := parts.filterMap CodePart.other? }
  else throw (.malformed (.codeTooLong stored.bytecode.length))

/-- The slots that a body needs: as many as it had, and enough for every named variable. -/
def neededLocals (code : Code) : UInt16 :=
  code.locals.foldl (fun most v => max most v.slotEnd) code.maxLocals

def internLocals (locals : List LocalVariable) : Interning (List Attribute) := do
  let entries ← locals.mapM LocalVariable.toEntry
  if entries.isEmpty then return []
  else
    let table ← ConstantPool.internAttribute Attribute.localsName (LocalEntry.tableFormat.write entries)
    return [table]

/-- The body to store: other attributes first, then the local variables and their types. -/
def toAttribute (code : Code) : Interning CodeAttribute := do
  let table ← internLocals code.locals
  return {
    maxStack := code.maxStack
    maxLocals := code.neededLocals
    bytecode := code.bytecode
    handlers := code.handlers
    attributes := code.attributes ++ table ++ code.localTypes }

end Code

end MethodMetadata
