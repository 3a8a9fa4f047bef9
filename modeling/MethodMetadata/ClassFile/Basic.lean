import MethodMetadata.ClassFile.Attribute
import MethodMetadata.ClassFile.ConstantPool

/-! Class files as they are stored. Reading uses all bytes, and writing gives the same bytes
back. -/
namespace MethodMetadata

/-- The version of a class file. -/
structure Version where
  minor : UInt16
  major : UInt16
  deriving DecidableEq, Repr

/-- A field or a method as it is stored. -/
structure Member where
  flags : UInt16
  nameIndex : UInt16
  descriptorIndex : UInt16
  attributes : List Attribute
  deriving DecidableEq, Repr

/-- A class as it is stored; a super class index of zero stands for none. -/
structure ClassFile where
  version : Version
  constants : ConstantPool
  flags : UInt16
  thisClass : UInt16
  superClass : UInt16
  interfaces : List UInt16
  fields : List Member
  methods : List Member
  attributes : List Attribute

open Format

/-- The version that class files of the eighth platform release carry. -/
def Version.release8 : Version := ⟨0, 52⟩

def Version.format : Format Version :=
  (word16.pair word16).imap (fun (minor, major) => ⟨minor, major⟩) fun v => (v.minor, v.major)

def Member.format : Format Member :=
  (word16.pair (word16.pair (word16.pair (counted Attribute.format)))).imap
    (fun (flags, nameIndex, descriptorIndex, attributes) =>
      ⟨flags, nameIndex, descriptorIndex, attributes⟩)
    fun m => (m.flags, m.nameIndex, m.descriptorIndex, m.attributes)

namespace ClassFile

def magic : List UInt8 := [0xCA, 0xFE, 0xBA, 0xBE]

def magicFormat : Format Unit where
  read bytes :=
    let found := bytes.take 4
    if found = magic then .ok ((), bytes.drop 4)
    else if found.length = 4 then .error (.badMagic found)
    else .error .endOfInput
  write _ := .ok magic

def bodyFormat : Format ClassFile :=
  (Version.format.pair (ConstantPool.format.pair (word16.pair (word16.pair (word16.pair
    ((counted word16).pair ((counted Member.format).pair ((counted Member.format).pair
      (counted Attribute.format))))))))).imap
    (fun (version, constants, flags, thisClass, superClass, interfaces, fields, methods,
        attributes) =>
      ⟨version, constants, flags, thisClass, superClass, interfaces, fields, methods, attributes⟩)
    fun c =>
      (c.version, c.constants, c.flags, c.thisClass, c.superClass, c.interfaces, c.fields,
        c.methods, c.attributes)

def format : Format ClassFile :=
  (magicFormat.pair bodyFormat).imap (·.2) fun c => ((), c)

/-- Reads a class file from all of the bytes. -/
def parse (bytes : List UInt8) : Except ClassFileError ClassFile :=
  (format.readAll "class file" bytes).mapError .malformed

def toBytes (c : ClassFile) : Except ClassFileError (List UInt8) :=
  (format.write c).mapError .malformed

end ClassFile

end MethodMetadata
