/-! The shortest decimal that reads back as a given 64-bit float, chosen by exact arithmetic. -/
namespace MethodMetadata.Decimal

/-- A finite value `mantissa * 2 ^ exponent`; below a power of two the gap is half as wide. -/
structure Binary where
  mantissa : Nat
  exponent : Int
  narrowBelow : Bool
  deriving DecidableEq, Repr

/-- One above the largest fraction that the low bits of a float hold. -/
def fractionBound : Nat := 0x10000000000000

/-- The magnitude that the bits of a finite float stand for. -/
def Binary.ofBits (bits : UInt64) : Binary :=
  let biased : Nat := bits.toNat / fractionBound % 0x800
  let fraction : Nat := bits.toNat % fractionBound
  if biased = 0 then ⟨fraction, -1074, false⟩
  else ⟨fractionBound + fraction, (biased : Int) - 1075, fraction == 0 && 1 < biased⟩

/-- A decimal value `digits * 10 ^ exponent`. -/
structure Digits where
  digits : Nat
  exponent : Int
  deriving DecidableEq, Repr

/-- Exact comparison of a decimal with `n * 2 ^ e`. -/
def Digits.compareBinary (d : Digits) (n : Nat) (e : Int) : Ordering :=
  compare (d.digits * Nat.pow 10 d.exponent.toNat * Nat.pow 2 (-e).toNat)
    (n * Nat.pow 2 e.toNat * Nat.pow 10 (-d.exponent).toNat)

/-- Whether a decimal lies among the reals that round to a value: halfway to either neighbour,
the ends included for an even mantissa. -/
def Binary.readsBack (x : Binary) (d : Digits) : Bool :=
  let low := 4 * x.mantissa - (if x.narrowBelow then 1 else 2)
  let high := 4 * x.mantissa + 2
  let ends := x.mantissa % 2 == 0
  let above := d.compareBinary low (x.exponent - 2)
  let below := d.compareBinary high (x.exponent - 2)
  (above == .gt || (ends && above == .eq)) && (below == .lt || (ends && below == .eq))

/-- Of the two multiples of a power of ten around a value, the nearer one that reads back;
halfway between them the upper one. -/
def Binary.onGrid? (x : Binary) (power : Int) : Option Digits :=
  let num := x.mantissa * Nat.pow 2 x.exponent.toNat * Nat.pow 10 (-power).toNat
  let den := Nat.pow 2 (-x.exponent).toNat * Nat.pow 10 power.toNat
  let lower : Digits := ⟨num / den, power⟩
  let upper : Digits := ⟨num / den + 1, power⟩
  match x.readsBack lower, x.readsBack upper with
  | true, true => if 2 * (num % den) < den then some lower else some upper
  | true, false => some lower
  | false, true => some upper
  | false, false => none

def powers : List Int :=
  (List.range 660).map fun i : Nat => (310 : Int) - i

def Binary.exact (x : Binary) : Digits :=
  if 0 ≤ x.exponent then ⟨x.mantissa * Nat.pow 2 x.exponent.toNat, 0⟩
  else ⟨x.mantissa * Nat.pow 5 (-x.exponent).toNat, x.exponent⟩

/-- The decimal on the coarsest grid that has a point reading back; zero is written as zero. -/
def Binary.shortest (x : Binary) : Digits :=
  if x.mantissa = 0 then ⟨0, 0⟩ else (powers.findSome? x.onGrid?).getD x.exact

end MethodMetadata.Decimal
