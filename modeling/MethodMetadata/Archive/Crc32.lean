/-! The checksum of archive entries: the remainder of a division by a polynomial over bits. -/
namespace MethodMetadata

def crcBit (n : UInt32) : UInt32 :=
  if n &&& 1 = 1 then (n >>> 1) ^^^ 0xEDB88320 else n >>> 1

/-- The remainders of single bytes. -/
def crcTable : Array UInt32 :=
  (Array.range 256).map fun b => Nat.repeat crcBit 8 (UInt32.ofNat b)

def crcByte (n : UInt32) (b : UInt8) : UInt32 :=
  crcTable.getD ((n ^^^ b.toUInt32) &&& 0xFF).toNat 0 ^^^ (n >>> 8)

def crc32 (bytes : ByteArray) : UInt32 :=
  bytes.foldl crcByte 0xFFFFFFFF ^^^ 0xFFFFFFFF

end MethodMetadata
