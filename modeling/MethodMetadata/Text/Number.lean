/-! Whole numbers in decimal digits. -/
namespace MethodMetadata.Number

def digit? (c : Char) : Option Nat :=
  if '0' ≤ c ∧ c ≤ '9' then some (c.toNat - 48) else none

def ofDigits? (digits : List Char) : Option Nat :=
  if digits.isEmpty then none
  else digits.foldlM (fun n c => (digit? c).map (n * 10 + ·)) 0

/-- A number below a bound, which may carry a plus sign. -/
def below? (bound : Nat) (text : List Char) : Option Nat :=
  let digits := match text with
    | '+' :: rest => rest
    | _ => text
  (ofDigits? digits).filter (· < bound)

def uint32? (text : List Char) : Option UInt32 :=
  (below? UInt32.size text).map UInt32.ofNat

end MethodMetadata.Number
