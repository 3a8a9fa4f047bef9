import MethodMetadata.Decimal.Style
import MethodMetadata.OffsetVector
import MethodMetadata.Text.ModifiedUtf8

/-! The constants of a class file. Floats are kept as bits, so that every payload survives. -/
namespace MethodMetadata

/-- Bytes of a text constant together with what they decode to. Bytes that are no text are
kept as they are. -/
structure EncodedText where
  bytes : List UInt8
  decoded : Except ModifiedUtf8.Error String
  decoded_eq : decoded = ModifiedUtf8.decode bytes

namespace EncodedText

def ofBytes (bytes : List UInt8) : EncodedText :=
  ⟨bytes, ModifiedUtf8.decode bytes, rfl⟩

def ofString (text : String) : EncodedText :=
  ofBytes (ModifiedUtf8.encode text)

theorem ext_bytes {a b : EncodedText} (h : a.bytes = b.bytes) : a = b := by
  cases a; cases b; simp_all

instance : DecidableEq EncodedText := fun a b =>
  if h : a.bytes = b.bytes then isTrue (ext_bytes h) else isFalse fun e => h (e ▸ rfl)

def spells (encoded : EncodedText) (text : String) : Bool :=
  match encoded.decoded with
  | .ok decoded => decoded == text
  | .error _ => false

end EncodedText

/-- What a method handle does with its member. -/
inductive HandleKind
  | getField | getStatic | putField | putStatic
  | invokeVirtual | invokeStatic | invokeSpecial | newInvokeSpecial | invokeInterface
  deriving DecidableEq, Repr

/-- The entries of a constant pool, which refer to each other by index. -/
inductive Constant
  | utf8 (text : EncodedText)
  | integer (value : Int32)
  | float (bits : UInt32)
  | long (value : Int64)
  | double (bits : UInt64)
  | classRef (name : UInt16)
  | string (text : UInt16)
  | fieldRef (owner nameAndType : UInt16)
  | methodRef (owner nameAndType : UInt16) (onInterface : Bool)
  | nameAndType (name descriptor : UInt16)
  | methodHandle (kind : HandleKind) (member : UInt16)
  | methodType (descriptor : UInt16)
  | dynamic (bootstrap nameAndType : UInt16)
  | invokeDynamic (bootstrap nameAndType : UInt16)
  | module (name : UInt16)
  | package (name : UInt16)
  deriving DecidableEq

namespace Constant

/-- Eight-byte constants take two indices. -/
def width : Constant → Nat
  | .long _ | .double _ => 2
  | _ => 1

instance : Wide Constant := ⟨width⟩

def describeIndex (kind : String) (index : UInt16) : String :=
  kind ++ "ConstantIndex(ConstantIndex(" ++ toString index ++ "))"

/-- The text of a constant in messages. Only those that can fail to fit in a pool are written
out: texts and classes, which are added, and wide constants, which are read. -/
def describe : Constant → String
  | .utf8 text => "Utf8([" ++ ", ".intercalate (text.bytes.map toString) ++ "])"
  | .classRef name => "Class(" ++ describeIndex "Utf8" name ++ ")"
  | .long value => "Long(" ++ toString value.toInt ++ ")"
  | .double bits => "Double(" ++ Decimal.messageStyle.render bits ++ ")"
  | _ => "constant"

end Constant

/-- A constant that no longer fits behind those that end at an offset. -/
structure PoolOverflow where
  constant : Constant
  offset : UInt16
  deriving DecidableEq

end MethodMetadata
