import MethodMetadata.ClassFile.ConstantFormat
import MethodMetadata.ClassFile.Error
import MethodMetadata.Name

/-! The constant pool. Indices start at one, constants are only ever added, and a text or class
that is already there is found again instead of being added. -/
namespace MethodMetadata

/-- Constants by index; the index behind the last one still fits in sixteen bits. -/
structure ConstantPool where
  constants : OffsetVector Constant
  start_eq : constants.start = 1
  next_le : constants.next ≤ 65535

/-- Steps that may add constants to a pool. A step that fails keeps what it has added. -/
abbrev Interning := ExceptT ClassFileError (StateM ConstantPool)

namespace ConstantPool

def empty : ConstantPool where
  constants := .empty 1
  start_eq := rfl
  next_le := by decide

def nextIndex (pool : ConstantPool) : UInt16 :=
  UInt16.ofNat pool.constants.next

/-- Whether the indices of one more constant fit. -/
abbrev Fits (pool : ConstantPool) (constant : Constant) : Prop :=
  pool.constants.next + constant.width ≤ 65535

def push (pool : ConstantPool) (constant : Constant) (fits : pool.Fits constant) : ConstantPool :=
  ⟨pool.constants.push constant, pool.start_eq, fits⟩

def add (constant : Constant) : Interning UInt16 := fun pool =>
  let index := pool.nextIndex
  if fits : pool.Fits constant then (.ok index, pool.push constant fits)
  else (.error (.poolOverflow ⟨constant, index⟩), pool)

def get (pool : ConstantPool) (index : UInt16) : Except ClassFileError Constant :=
  match pool.constants.get? index.toNat with
  | some constant => .ok constant
  | none => .error (.invalidIndex index)

def text (pool : ConstantPool) (index : UInt16) : Except ClassFileError String :=
  match pool.get index with
  | .error e => .error e
  | .ok (.utf8 encoded) => encoded.decoded.mapError fun e => .malformed (.badText e)
  | .ok _ => .error (.unexpectedConstant index .text)

def className (pool : ConstantPool) (index : UInt16) : Except ClassFileError String :=
  match pool.get index with
  | .error e => .error e
  | .ok (.classRef name) => pool.text name
  | .ok _ => .error (.unexpectedConstant index .className)

def binaryName (pool : ConstantPool) (index : UInt16) : Except ClassFileError BinaryName := do
  let name ← pool.className index
  (BinaryName.ofString name).mapError fun fault => .badName fault.message

/-- The first index of a text. -/
def textIndex? (pool : ConstantPool) (text : String) : Option UInt16 :=
  (pool.constants.find? fun
    | .utf8 encoded => encoded.spells text
    | _ => false).map UInt16.ofNat

/-- The first index of a class by the index of its name. -/
def classIndex? (pool : ConstantPool) (name : UInt16) : Option UInt16 :=
  (pool.constants.find? fun
    | .classRef found => found == name
    | _ => false).map UInt16.ofNat

/-- Finds or adds a text. -/
def internText (text : String) : Interning UInt16 := fun pool =>
  match pool.textIndex? text with
  | some index => (.ok index, pool)
  | none => add (.utf8 (.ofString text)) pool

def internClassNamed (name : UInt16) : Interning UInt16 := fun pool =>
  match pool.classIndex? name with
  | some index => (.ok index, pool)
  | none => add (.classRef name) pool

/-- Finds or adds a class and its name. -/
def internClass (text : String) : Interning UInt16 := do
  let name ← internText text
  internClassNamed name

/-- Reads constants behind those of a pool until the announced end is reached. A constant takes
an index at least, so the end bounds the steps. -/
def readOnto (stop : Nat) : Nat → ConstantPool → List UInt8 → Except Fault (ConstantPool × List UInt8)
  | 0, pool, bytes => .ok (pool, bytes)
  | steps + 1, pool, bytes =>
    if stop ≤ pool.constants.next then .ok (pool, bytes)
    else
      match Constant.format.read bytes with
      | .error e => .error e
      | .ok (constant, rest) =>
        if fits : pool.Fits constant then readOnto stop steps (pool.push constant fits) rest
        else .error (.poolOverflow ⟨constant, pool.nextIndex⟩)

/-- The written form: one more than the largest index, and the constants in order. -/
def format : Format ConstantPool where
  read bytes := do
    let (count, rest) ← Format.word16.read bytes
    let (pool, rest) ← readOnto count.toNat count.toNat empty rest
    if pool.constants.next = count.toNat then return (pool, rest) else throw .poolOverrun
  write pool := do
    let count ← Format.word16.write pool.nextIndex
    let body ← Constant.format.writeMany (pool.constants.entries.toList.map (·.2))
    return count ++ body

end ConstantPool

end MethodMetadata
