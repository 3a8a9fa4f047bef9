import MethodMetadata.Decimal.Shortest

/-! The written form of a 64-bit float in messages. -/
namespace MethodMetadata.Decimal

/-- Which leading exponents are written positionally, and the texts of the special values. -/
structure Style where
  positionalFrom : Int
  positionalTo : Int
  nan : String
  infinity : String

/-- Positional from 0.0001 to below 10^16, with a point in every positional form. -/
def messageStyle : Style where
  positionalFrom := -4
  positionalTo := 15
  nan := "NaN"
  infinity := "inf"

def Style.layOut (style : Style) (d : Digits) : String :=
  let digits := (toString d.digits).toList
  let lead := d.exponent + digits.length - 1
  let text :=
    if style.positionalFrom ≤ lead ∧ lead ≤ style.positionalTo then
      if lead < 0 then '0' :: '.' :: (List.replicate (-lead - 1).toNat '0' ++ digits)
      else if 0 ≤ d.exponent then digits ++ List.replicate d.exponent.toNat '0' ++ ['.', '0']
      else digits.take (lead.toNat + 1) ++ '.' :: digits.drop (lead.toNat + 1)
    else
      digits.take 1 ++ (if digits.length = 1 then [] else '.' :: digits.drop 1) ++
        'e' :: (toString lead).toList
  String.ofList text

def Style.render (style : Style) (bits : UInt64) : String :=
  let sign := if bits.toNat.testBit 63 then "-" else ""
  if bits.toNat / fractionBound % 0x800 = 0x7FF then
    if bits.toNat % fractionBound = 0 then sign ++ style.infinity else style.nan
  else sign ++ style.layOut (Binary.ofBits bits).shortest

end MethodMetadata.Decimal
