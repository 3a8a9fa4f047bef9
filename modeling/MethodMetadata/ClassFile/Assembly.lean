import MethodMetadata.ClassFile.Basic
import MethodMetadata.Editable.Code

/-! Class files put together from names. Texts may be anything; every name enters the pool in
the order in which it is met. -/
namespace MethodMetadata.Assembly

/-- An attribute with its contents as bytes. -/
structure AttributeSource where
  name : String
  info : List UInt8

/-- A handler of a class of exceptions, or of all of them. -/
structure HandlerSource where
  start : UInt16
  stop : UInt16
  handler : UInt16
  catchName : Option String

/-- A row of a local variable table. -/
structure LocalSource where
  name : String
  descriptor : String
  start : UInt16
  length : UInt16
  slot : UInt16

/-- A method body; without a list of local variables it has no table of them. -/
structure CodeSource where
  maxStack : UInt16
  maxLocals : UInt16
  bytecode : List UInt8
  handlers : List HandlerSource
  locals : Option (List LocalSource)
  attributes : List AttributeSource

/-- A field, or a method with a body and declared exceptions. -/
structure MemberSource where
  flags : UInt16
  name : String
  descriptor : String
  code : Option CodeSource
  exceptions : Option (List String)
  attributes : List AttributeSource

/-- A class. The `strings` are further texts for the pool. -/
structure ClassSource where
  version : Version
  flags : UInt16
  thisName : String
  superName : Option String
  interfaces : List String
  fields : List MemberSource
  methods : List MemberSource
  attributes : List AttributeSource
  strings : List String

open ConstantPool

def attributeOf (source : AttributeSource) : Interning Attribute :=
  internAttribute source.name (.ok source.info)

/-- The index of a class, or zero for none. -/
def classOf : Option String → Interning UInt16
  | none => return 0
  | some name => internClass name

def handlerOf (source : HandlerSource) : Interning ExceptionHandler := do
  return ⟨source.start, source.stop, source.handler, ← classOf source.catchName⟩

def localOf (source : LocalSource) : Interning LocalEntry := do
  let name ← internText source.name
  let descriptor ← internText source.descriptor
  return ⟨source.start, source.length, name, descriptor, source.slot⟩

def codeOf (source : CodeSource) : Interning Attribute := do
  let handlers ← source.handlers.mapM handlerOf
  let rows ← source.locals.mapM (·.mapM localOf)
  let attributes ← source.attributes.mapM attributeOf
  let table ← rows.mapM fun rows => internAttribute Attribute.localsName (LocalEntry.tableFormat.write rows)
  let code : CodeAttribute :=
    { maxStack := source.maxStack
      maxLocals := source.maxLocals
      bytecode := source.bytecode
      handlers := handlers
      attributes := attributes ++ table.toList }
  internAttribute Attribute.codeName (CodeAttribute.format.write code)

def exceptionsOf (names : List String) : Interning Attribute := do
  let classes ← names.mapM internClass
  internAttribute Attribute.exceptionsName (Attribute.exceptionsFormat.write classes)

def memberOf (source : MemberSource) : Interning Member := do
  let name ← internText source.name
  let descriptor ← internText source.descriptor
  let code ← source.code.mapM codeOf
  let exceptions ← source.exceptions.mapM exceptionsOf
  let attributes ← source.attributes.mapM attributeOf
  return ⟨source.flags, name, descriptor, code.toList ++ exceptions.toList ++ attributes⟩

def membersOf (source : ClassSource) : Interning ClassFile := do
  let thisClass ← internClass source.thisName
  let superClass ← classOf source.superName
  let interfaces ← source.interfaces.mapM internClass
  let fields ← source.fields.mapM memberOf
  let methods ← source.methods.mapM memberOf
  let attributes ← source.attributes.mapM attributeOf
  let _ ← source.strings.mapM internText
  return {
    version := source.version
    constants := .empty
    flags := source.flags
    thisClass := thisClass
    superClass := superClass
    interfaces := interfaces
    fields := fields
    methods := methods
    attributes := attributes }

def assemble (source : ClassSource) : Except ClassFileError (List UInt8) :=
  match (membersOf source).run.run .empty with
  | (.error e, _) => .error e
  | (.ok file, constants) => { file with constants := constants }.toBytes

end MethodMetadata.Assembly
