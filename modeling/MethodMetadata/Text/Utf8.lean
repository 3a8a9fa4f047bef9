/-! Reading UTF-8 that may be broken: every longest piece that starts a character but does not
end it, and every other byte that starts none, counts as one replacement character. -/
namespace MethodMetadata.Utf8

/-- A character of which continuation bytes are missing, the next one from a range. -/
structure Begun where
  value : Nat
  missing : Nat
  least : UInt8 := 0x80
  most : UInt8 := 0xBF
  deriving DecidableEq, Repr

/-- What stands for bytes that are no character. -/
def replacement : Char := '\uFFFD'

/-- Starts a character behind those already read, which are held in reverse. The range of the
second byte keeps out overlong forms, surrogates and what lies beyond the last character. -/
def start (read : List Char) (b : UInt8) : List Char × Option Begun :=
  if b < 0x80 then (Char.ofNat b.toNat :: read, none)
  else if 0xC2 ≤ b ∧ b < 0xE0 then (read, some { value := b.toNat - 0xC0, missing := 1 })
  else if b = 0xE0 then (read, some { value := 0, missing := 2, least := 0xA0 })
  else if b = 0xED then (read, some { value := 0xD, missing := 2, most := 0x9F })
  else if 0xE1 ≤ b ∧ b < 0xF0 then (read, some { value := b.toNat - 0xE0, missing := 2 })
  else if b = 0xF0 then (read, some { value := 0, missing := 3, least := 0x90 })
  else if 0xF1 ≤ b ∧ b < 0xF4 then (read, some { value := b.toNat - 0xF0, missing := 3 })
  else if b = 0xF4 then (read, some { value := 4, missing := 3, most := 0x8F })
  else (replacement :: read, none)

def step : List Char × Option Begun → UInt8 → List Char × Option Begun
  | (read, none), b => start read b
  | (read, some begun), b =>
    if begun.least ≤ b ∧ b ≤ begun.most then
      let value := begun.value * 64 + (b.toNat - 0x80)
      if begun.missing ≤ 1 then (Char.ofNat value :: read, none)
      else (read, some { value := value, missing := begun.missing - 1 })
    else start (replacement :: read) b

def decodeLossy (bytes : List UInt8) : String :=
  match bytes.foldl step ([], none) with
  | (read, none) => String.ofList read.reverse
  | (read, some _) => String.ofList (replacement :: read).reverse

end MethodMetadata.Utf8
