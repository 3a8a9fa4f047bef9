import MethodMetadata.Format

/-! Attributes. Those that are edited have formats of their own; all others stay bytes. -/
namespace MethodMetadata

/-- A named block of bytes. -/
structure Attribute where
  nameIndex : UInt16
  info : List UInt8
  deriving DecidableEq, Repr

/-- A range of bytecode, inclusive at the start, whose exceptions of a class go to a handler;
class index zero stands for all of them. -/
structure ExceptionHandler where
  start : UInt16
  stop : UInt16
  handler : UInt16
  catchType : UInt16
  deriving DecidableEq, Repr

/-- The body of a method as it is stored. -/
structure CodeAttribute where
  maxStack : UInt16
  maxLocals : UInt16
  bytecode : List UInt8
  handlers : List ExceptionHandler
  attributes : List Attribute
  deriving DecidableEq, Repr

/-- A row of a local variable table as it is stored. -/
structure LocalEntry where
  start : UInt16
  length : UInt16
  nameIndex : UInt16
  descriptorIndex : UInt16
  slot : UInt16
  deriving DecidableEq, Repr

open Format

namespace Attribute

def format : Format Attribute :=
  (word16.pair block32).imap (fun (nameIndex, info) => ⟨nameIndex, info⟩)
    fun a => (a.nameIndex, a.info)

def codeName : String := "Code"
def exceptionsName : String := "Exceptions"
def localsName : String := "LocalVariableTable"
def localTypesName : String := "LocalVariableTypeTable"

def exceptionsFormat : Format (List UInt16) :=
  counted word16

end Attribute

namespace ExceptionHandler

def format : Format ExceptionHandler :=
  (word16.pair (word16.pair (word16.pair word16))).imap
    (fun (start, stop, handler, catchType) => ⟨start, stop, handler, catchType⟩)
    fun h => (h.start, h.stop, h.handler, h.catchType)

end ExceptionHandler

namespace CodeAttribute

def format : Format CodeAttribute :=
  (word16.pair (word16.pair (block32.pair
    ((counted ExceptionHandler.format).pair (counted Attribute.format))))).imap
    (fun (maxStack, maxLocals, bytecode, handlers, attributes) =>
      ⟨maxStack, maxLocals, bytecode, handlers, attributes⟩)
    fun c => (c.maxStack, c.maxLocals, c.bytecode, c.handlers, c.attributes)

end CodeAttribute

namespace LocalEntry

def format : Format LocalEntry :=
  (word16.pair (word16.pair (word16.pair (word16.pair word16)))).imap
    (fun (start, length, nameIndex, descriptorIndex, slot) =>
      ⟨start, length, nameIndex, descriptorIndex, slot⟩)
    fun e => (e.start, e.length, e.nameIndex, e.descriptorIndex, e.slot)

def tableFormat : Format (List LocalEntry) :=
  counted format

end LocalEntry

end MethodMetadata
