/-! Access flags of classes, methods and fields, kept as the bits of the class file. -/
namespace MethodMetadata.AccessFlags

/-- What a set of flags belongs to. -/
inductive Owner
  | classes
  | methods
  | fields
  deriving DecidableEq, Repr

/-- The named flags in order. The last one covers the bits without a meaning. -/
def named : Owner → List (String × UInt16)
  | .classes =>
    [("PUBLIC", 0x0001), ("FINAL", 0x0010), ("SUPER", 0x0020), ("INTERFACE", 0x0200),
      ("ABSTRACT", 0x0400), ("SYNTHETIC", 0x1000), ("ANNOTATION", 0x2000), ("ENUM", 0x4000),
      ("MODULE", 0x8000), ("RESERVED", 0x09CE)]
  | .methods =>
    [("PUBLIC", 0x0001), ("PRIVATE", 0x0002), ("PROTECTED", 0x0004), ("STATIC", 0x0008),
      ("FINAL", 0x0010), ("SYNCHRONIZED", 0x0020), ("BRIDGE", 0x0040), ("VARARGS", 0x0080),
      ("NATIVE", 0x0100), ("ABSTRACT", 0x0400), ("STRICT", 0x0800), ("SYNTHETIC", 0x1000),
      ("RESERVED", 0xE200)]
  | .fields =>
    [("PUBLIC", 0x0001), ("PRIVATE", 0x0002), ("PROTECTED", 0x0004), ("STATIC", 0x0008),
      ("FINAL", 0x0010), ("VOLATILE", 0x0040), ("TRANSIENT", 0x0080), ("SYNTHETIC", 0x1000),
      ("ENUM", 0x4000), ("RESERVED", 0xAF20)]

/-- The bit of a method without a receiver. -/
def staticBit : UInt16 := 0x0008

def contains (bits mask : UInt16) : Bool :=
  bits &&& mask == mask

/-- The names of all flags that are set, with bars between them. -/
def describe (owner : Owner) (bits : UInt16) : String :=
  match (named owner).filter (fun flag => contains bits flag.2) with
  | [] => "(empty)"
  | set => " | ".intercalate (set.map (·.1))

end MethodMetadata.AccessFlags
