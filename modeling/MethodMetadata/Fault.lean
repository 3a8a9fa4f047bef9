import MethodMetadata.ClassFile.Constant

/-! Faults of reading and writing bytes: of class files, of compressed data, and those that the
system reports. -/
namespace MethodMetadata

/-- What went wrong with bytes being read or written, or with a file. -/
inductive Fault
  | endOfInput
  | shortBlock (expected found : Nat)
  | trailing (count : Nat) (after : String)
  | sequenceTooLong (length : Nat)
  | textTooLong
  | badText (error : ModifiedUtf8.Error)
  | badMagic (found : List UInt8)
  | unknownTag (tag : UInt8)
  | unknownHandleKind (number : UInt8)
  | poolOverflow (overflow : PoolOverflow)
  | poolOverrun
  | codeTooLong (length : Nat)
  | rangeOverflow (start length : UInt16)
  | rangeReversed (name : String)
  | corruptStream
  | incompleteStream
  | badChecksum
  | notUtf8
  | reported (kind : FaultKind) (text : String)
  deriving DecidableEq

namespace Fault

def kind : Fault → FaultKind
  | .endOfInput | .shortBlock .. | .incompleteStream => .unexpectedEnd
  | .sequenceTooLong _ | .textTooLong | .rangeReversed _ | .corruptStream => .invalidInput
  | .badChecksum => .other
  | .badText error => error.kind
  | .reported kind _ => kind
  | _ => .invalidData

/-- The overflow of a pool as it is shown for a pool being read. -/
def overflowText (overflow : PoolOverflow) : String :=
  "ConstantPoolOverflow \x7b constant: " ++ overflow.constant.describe ++ ", offset: " ++
    toString overflow.offset ++ " \x7d"

def message : Fault → String
  | .endOfInput => "failed to fill whole buffer"
  | .shortBlock expected found => s!"Expected {expected} bytes, found {found}"
  | .trailing count after => s!"{count} trailing byte(s) after {after}"
  | .sequenceTooLong length => s!"Sequence of {length} elements is too long"
  | .textTooLong => "Utf8 constant longer than 65535 bytes"
  | .badText error => error.message
  | .badMagic found => "Bad class file magic [" ++ ", ".intercalate (found.map Hex.ofByteUpper) ++ "]"
  | .unknownTag tag => s!"Unknown constant tag {tag}"
  | .unknownHandleKind number => s!"Unknown method handle kind {number}"
  | .poolOverflow overflow => overflowText overflow
  | .poolOverrun => "Wide constant overruns the constant pool count"
  | .codeTooLong length => s!"Code array of {length} bytes is too long"
  | .rangeOverflow start length => s!"Local variable range {start}+{length} overflows"
  | .rangeReversed name => s!"Local variable '{name}' ends before it starts"
  | .corruptStream => "corrupt deflate stream"
  | .incompleteStream => "incomplete deflate stream"
  | .badChecksum => "Invalid checksum"
  | .notUtf8 => "stream did not contain valid UTF-8"
  | .reported _ text => text

end Fault

end MethodMetadata
