import MethodMetadata.Archive.Error

/-! Reading fields from bytes at a position that moves on. Numbers have their least significant
byte first. -/
namespace MethodMetadata

/-- Reading bytes from a position on, which becomes the one behind them. -/
abbrev Scan := ReaderT ByteArray (StateT Nat (Except ArchiveError))

namespace Scan

def block (length : Nat) : Scan ByteArray := fun bytes position =>
  if position + length ≤ bytes.size then
    .ok (bytes.extract position (position + length), position + length)
  else .error (.fault .endOfInput)

def ofLittleEndian (bytes : List UInt8) : Nat :=
  bytes.foldr (fun b n => n * 256 + b.toNat) 0

def number (width : Nat) : Scan Nat :=
  return ofLittleEndian (← block width).data.toList

/-- Leaves out some bytes, which need not be there. -/
def skip (length : Nat) : Scan Unit :=
  modify (· + length)

def runAt {α : Type} (scan : Scan α) (bytes : ByteArray) (position : Nat) : Except ArchiveError α :=
  (scan.run bytes).run' position

end Scan

def toLittleEndian : Nat → Nat → List UInt8
  | 0, _ => []
  | width + 1, n => UInt8.ofNat n :: toLittleEndian width (n / 256)

end MethodMetadata
