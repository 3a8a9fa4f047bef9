import MethodMetadata.FaultKind
import MethodMetadata.Text.Hex
import MethodMetadata.Text.Utf16

/-! Modified UTF-8, the text encoding of class files: every UTF-16 unit is a group of one to
three bytes, the zero unit takes two, and a supplementary character is a pair of three-byte
groups. Decoding admits overlong groups and a plain zero byte. -/
namespace MethodMetadata.ModifiedUtf8

/-- Why bytes are not modified UTF-8. -/
inductive Error
  | badLeading (byte : UInt8)
  | badContinuation (byte : UInt8)
  | truncated
  | unpairedSurrogate
  deriving DecidableEq, Repr

def Error.kind : Error → FaultKind
  | .truncated => .unexpectedEnd
  | _ => .invalidData

def Error.message : Error → String
  | .badLeading byte => s!"Bad leading byte 0x{Hex.ofByte byte}"
  | .badContinuation byte => s!"Bad continuation byte 0x{Hex.ofByte byte}"
  | .truncated => "Truncated modified UTF-8 sequence"
  | .unpairedSurrogate => "Unpaired surrogate in Utf8 constant"

def encodeUnit (unit : UInt16) : List UInt8 :=
  let n := unit.toNat
  if 0 < n ∧ n < 0x80 then [UInt8.ofNat n]
  else if n < 0x800 then [UInt8.ofNat (0xC0 + n / 0x40), UInt8.ofNat (0x80 + n % 0x40)]
  else
    [UInt8.ofNat (0xE0 + n / 0x1000), UInt8.ofNat (0x80 + n / 0x40 % 0x40),
      UInt8.ofNat (0x80 + n % 0x40)]

def encode (text : String) : List UInt8 :=
  (Utf16.encode text.toList).flatMap encodeUnit

def continuation (byte : UInt8) : Except Error Nat :=
  if 0x80 ≤ byte ∧ byte < 0xC0 then .ok (byte.toNat - 0x80) else .error (.badContinuation byte)

/-- The units of a sequence of groups, behind those already read, which are held in reverse. -/
def unitsOnto (read : List UInt16) : List UInt8 → Except Error (List UInt16)
  | [] => .ok read.reverse
  | lead :: rest =>
    if lead < 0x80 then unitsOnto (UInt16.ofNat lead.toNat :: read) rest
    else if lead < 0xC0 then .error (.badLeading lead)
    else if lead < 0xE0 then
      match rest with
      | [] => .error .truncated
      | b :: rest =>
        match continuation b with
        | .error e => .error e
        | .ok low => unitsOnto (UInt16.ofNat ((lead.toNat - 0xC0) * 0x40 + low) :: read) rest
    else if lead < 0xF0 then
      match rest with
      | [] => .error .truncated
      | b :: rest =>
        match continuation b with
        | .error e => .error e
        | .ok high =>
          match rest with
          | [] => .error .truncated
          | c :: rest =>
            match continuation c with
            | .error e => .error e
            | .ok low =>
              unitsOnto (UInt16.ofNat ((lead.toNat - 0xE0) * 0x1000 + high * 0x40 + low) :: read)
                rest
    else .error (.badLeading lead)

def units (bytes : List UInt8) : Except Error (List UInt16) :=
  unitsOnto [] bytes

/-- The text that bytes encode. Bytes below 0x80 alone are taken as they are. -/
def decode (bytes : List UInt8) : Except Error String :=
  if bytes.all (· < 0x80) then .ok (String.ofList (bytes.map fun b => Char.ofNat b.toNat))
  else
    match units bytes with
    | .error e => .error e
    | .ok us =>
      match Utf16.decode us with
      | none => .error .unpairedSurrogate
      | some text => .ok (String.ofList text)

end MethodMetadata.ModifiedUtf8
