import MethodMetadata.Fault

/-! What can go wrong with a class file. -/
namespace MethodMetadata

/-- The kinds of constants that a lookup can ask for. -/
inductive ConstantKind
  | text
  | className
  deriving DecidableEq, Repr

def ConstantKind.describe : ConstantKind → String
  | .text => "Utf8"
  | .className => "Class"

/-- Faults of bytes, of references into the pool, and of the texts found there. -/
inductive ClassFileError
  | poolOverflow (overflow : PoolOverflow)
  | malformed (fault : Fault)
  | invalidIndex (index : UInt16)
  | unexpectedConstant (index : UInt16) (expected : ConstantKind)
  | badDescriptor (reason : String)
  | badName (reason : String)
  deriving DecidableEq

def ClassFileError.message : ClassFileError → String
  | .poolOverflow overflow =>
    s!"Constant pool overflow at {overflow.offset} adding {overflow.constant.describe}"
  | .malformed fault => s!"Malformed class file: {fault.message}"
  | .invalidIndex index => s!"Invalid constant index #{index}"
  | .unexpectedConstant index expected =>
    s!"Constant #{index} is not a {expected.describe} constant"
  | .badDescriptor reason => s!"Bad descriptor: {reason}"
  | .badName reason => s!"Bad name: {reason}"

end MethodMetadata
