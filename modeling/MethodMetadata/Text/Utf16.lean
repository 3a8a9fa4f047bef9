/-! UTF-16 code units. `encode` writes a text as units, `decode` joins units into a text
and refuses a surrogate that stands alone. -/
namespace MethodMetadata.Utf16

/-- The units of one character: its code point, or a surrogate pair above the basic plane. -/
def encodeChar (c : Char) : List UInt16 :=
  if c.toNat < 0x10000 then [UInt16.ofNat c.toNat]
  else
    let offset := c.toNat - 0x10000
    [UInt16.ofNat (0xD800 + offset / 0x400), UInt16.ofNat (0xDC00 + offset % 0x400)]

def encode (text : List Char) : List UInt16 :=
  text.flatMap encodeChar

/-- First half of a surrogate pair. -/
def isLeading (unit : UInt16) : Bool :=
  0xD800 ≤ unit && unit < 0xDC00

def isTrailing (unit : UInt16) : Bool :=
  0xDC00 ≤ unit && unit < 0xE000

def joinPair (leading trailing : UInt16) : Char :=
  Char.ofNat (0x10000 + (leading.toNat - 0xD800) * 0x400 + (trailing.toNat - 0xDC00))

def decodeOnto (joined : List Char) : List UInt16 → Option (List Char)
  | [] => some joined.reverse
  | unit :: rest =>
    if isLeading unit then
      match rest with
      | [] => none
      | next :: rest =>
        if isTrailing next then decodeOnto (joinPair unit next :: joined) rest else none
    else if isTrailing unit then none
    else decodeOnto (Char.ofNat unit.toNat :: joined) rest

/-- The text that units stand for, if every surrogate has its partner. -/
def decode (units : List UInt16) : Option (List Char) :=
  decodeOnto [] units

end MethodMetadata.Utf16
