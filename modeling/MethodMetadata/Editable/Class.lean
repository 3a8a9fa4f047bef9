import MethodMetadata.Editable.Method

/-! Classes with their methods opened up. Everything else stays as it was read. -/
namespace MethodMetadata

/-- A class for editing. The methods of `stored` are not used. -/
structure Class where
  name : BinaryName
  superName : Option BinaryName
  methods : List Method
  stored : ClassFile

namespace Class

/-- The name of a super class, which only the root of the hierarchy lacks. -/
def superNameAt (pool : ConstantPool) (index : UInt16) : Except ClassFileError (Option BinaryName) :=
  if index = 0 then return none else some <$> pool.binaryName index

def ofClassFile (stored : ClassFile) : Except ClassFileError Class := do
  let name ← stored.constants.binaryName stored.thisClass
  let superName ← superNameAt stored.constants stored.superClass
  let methods ← stored.methods.mapM (Method.ofMember stored.constants)
  return ⟨name, superName, methods, { stored with methods := [] }⟩

def parse (bytes : List UInt8) : Except ClassFileError Class := do
  ofClassFile (← ClassFile.parse bytes)

/-- The class file to store. Constants are only added, so that all indices stay valid. -/
def toClassFile (c : Class) : Except ClassFileError ClassFile :=
  match ((c.methods.mapM Method.toMember).run).run c.stored.constants with
  | (.error e, _) => .error e
  | (.ok methods, constants) => .ok { c.stored with methods := methods, constants := constants }

def serialize (c : Class) : Except ClassFileError (List UInt8) := do
  (← c.toClassFile).toBytes

end Class

end MethodMetadata
