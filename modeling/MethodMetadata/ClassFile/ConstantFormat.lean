import MethodMetadata.Format

/-! The written form of constants: a tag byte and the fields that belong to it. -/
namespace MethodMetadata

namespace HandleKind

def number : HandleKind → UInt8
  | .getField => 1
  | .getStatic => 2
  | .putField => 3
  | .putStatic => 4
  | .invokeVirtual => 5
  | .invokeStatic => 6
  | .invokeSpecial => 7
  | .newInvokeSpecial => 8
  | .invokeInterface => 9

def ofNumber? : UInt8 → Option HandleKind
  | 1 => some .getField
  | 2 => some .getStatic
  | 3 => some .putField
  | 4 => some .putStatic
  | 5 => some .invokeVirtual
  | 6 => some .invokeStatic
  | 7 => some .invokeSpecial
  | 8 => some .newInvokeSpecial
  | 9 => some .invokeInterface
  | _ => none

def format : Format HandleKind where
  read bytes := do
    let (number, rest) ← Format.byte.read bytes
    match ofNumber? number with
    | some kind => return (kind, rest)
    | none => throw (.unknownHandleKind number)
  write kind := Format.byte.write kind.number

end HandleKind

namespace Format

def text : Format EncodedText where
  read bytes := do
    let (length, rest) ← word16.read bytes
    let (block, rest) ← takeBlock length.toNat rest
    return (EncodedText.ofBytes block, rest)
  write value :=
    if value.bytes.length < 65536 then do
      let length ← word16.write (UInt16.ofNat value.bytes.length)
      return length ++ value.bytes
    else throw .textTooLong

def int32 : Format Int32 :=
  word32.imap UInt32.toInt32 Int32.toUInt32

def int64 : Format Int64 :=
  word64.imap UInt64.toInt64 Int64.toUInt64

end Format

namespace Constant

open Format

def indexPair : Format (UInt16 × UInt16) :=
  word16.pair word16

def readFields (tag : UInt8) (bytes : List UInt8) : Except Fault (Constant × List UInt8) :=
  match tag with
  | 1 => fields text .utf8
  | 3 => fields int32 .integer
  | 4 => fields word32 .float
  | 5 => fields int64 .long
  | 6 => fields word64 .double
  | 7 => fields word16 .classRef
  | 8 => fields word16 .string
  | 9 => fields indexPair fun (owner, member) => .fieldRef owner member
  | 10 => fields indexPair fun (owner, member) => .methodRef owner member false
  | 11 => fields indexPair fun (owner, member) => .methodRef owner member true
  | 12 => fields indexPair fun (name, descriptor) => .nameAndType name descriptor
  | 15 => fields (HandleKind.format.pair word16) fun (kind, member) => .methodHandle kind member
  | 16 => fields word16 .methodType
  | 17 => fields indexPair fun (bootstrap, member) => .dynamic bootstrap member
  | 18 => fields indexPair fun (bootstrap, member) => .invokeDynamic bootstrap member
  | 19 => fields word16 .module
  | 20 => fields word16 .package
  | _ => .error (.unknownTag tag)
where
  fields {α : Type} (format : Format α) (pack : α → Constant) :
      Except Fault (Constant × List UInt8) := do
    let (value, rest) ← format.read bytes
    return (pack value, rest)

def tag : Constant → UInt8
  | .utf8 _ => 1
  | .integer _ => 3
  | .float _ => 4
  | .long _ => 5
  | .double _ => 6
  | .classRef _ => 7
  | .string _ => 8
  | .fieldRef _ _ => 9
  | .methodRef _ _ onInterface => if onInterface then 11 else 10
  | .nameAndType _ _ => 12
  | .methodHandle _ _ => 15
  | .methodType _ => 16
  | .dynamic _ _ => 17
  | .invokeDynamic _ _ => 18
  | .module _ => 19
  | .package _ => 20

def writeFields : Constant → Except Fault (List UInt8)
  | .utf8 value => text.write value
  | .integer value => int32.write value
  | .float bits => word32.write bits
  | .long value => int64.write value
  | .double bits => word64.write bits
  | .classRef name => word16.write name
  | .string value => word16.write value
  | .fieldRef owner member => indexPair.write (owner, member)
  | .methodRef owner member _ => indexPair.write (owner, member)
  | .nameAndType name descriptor => indexPair.write (name, descriptor)
  | .methodHandle kind member => (HandleKind.format.pair word16).write (kind, member)
  | .methodType descriptor => word16.write descriptor
  | .dynamic bootstrap member => indexPair.write (bootstrap, member)
  | .invokeDynamic bootstrap member => indexPair.write (bootstrap, member)
  | .module name => word16.write name
  | .package name => word16.write name

def format : Format Constant where
  read bytes := do
    let (tag, rest) ← byte.read bytes
    readFields tag rest
  write constant := do
    let fields ← constant.writeFields
    return constant.tag :: fields

end Constant

end MethodMetadata
