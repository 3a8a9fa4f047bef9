import MethodMetadata.ClassFile.Attribute
import MethodMetadata.ClassFile.ConstantPool
import MethodMetadata.Descriptor

/-! Local variables with their names and types as texts and their ranges as two ends. -/
namespace MethodMetadata

/-- A named local variable slot, live from `start` up to `stop`. Name and descriptor may be any
texts. -/
structure LocalVariable where
  name : String
  descriptor : String
  start : UInt16
  stop : UInt16
  slot : UInt16
  deriving DecidableEq, Repr

namespace LocalVariable

/-- The slots that a value takes; a text that is no descriptor counts as one. -/
def width (v : LocalVariable) : Nat :=
  match FieldType.parse v.descriptor with
  | .ok type => type.width
  | .error _ => 1

/-- The first slot behind those of a variable, or the last slot there is. -/
def slotEnd (v : LocalVariable) : UInt16 :=
  UInt16.ofNat (min 65535 (v.slot.toNat + v.width))

/-- Looks up the texts of a stored row and turns its length into an end. -/
def ofEntry (pool : ConstantPool) (entry : LocalEntry) : Except ClassFileError LocalVariable :=
  if entry.start.toNat + entry.length.toNat ≤ 65535 then do
    let name ← pool.text entry.nameIndex
    let descriptor ← pool.text entry.descriptorIndex
    return ⟨name, descriptor, entry.start, entry.start + entry.length, entry.slot⟩
  else throw (.malformed (.rangeOverflow entry.start entry.length))

def toEntry (v : LocalVariable) : Interning LocalEntry := do
  if v.start ≤ v.stop then
    let nameIndex ← ConstantPool.internText v.name
    let descriptorIndex ← ConstantPool.internText v.descriptor
    return ⟨v.start, v.stop - v.start, nameIndex, descriptorIndex, v.slot⟩
  else throw (.malformed (.rangeReversed v.name))

end LocalVariable

end MethodMetadata
