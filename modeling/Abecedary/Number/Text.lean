import Abecedary.Number.Shortest

/-!
# The text of a number

Numbers are written with the fewest digits that read back, always positionally: never with an
exponent, and with a point only before places that are not zero. `Number.display` keeps the sign
of a zero; `Number.text`, the text form of a value, does not.
-/

namespace Abecedary

/-- The decimal written out with a point where one is needed. -/
def Decimal.chars (d : Decimal) : List Char :=
  let digits := Nat.toDigits 10 d.digits
  let places := (-d.exponent).toNat
  if places = 0 then digits ++ List.replicate d.exponent.toNat '0'
  else
    let padded := List.replicate (places + 1 - digits.length) '0' ++ digits
    padded.take (padded.length - places) ++ '.' :: padded.drop (padded.length - places)

namespace Number

/-- The number written out, with the sign of a zero. -/
def display (x : Number) : String :=
  if x.isFinite then
    let magnitude := if x.mantissa = 0 then ['0'] else (Cell.ofNumber x).shortest.chars
    String.ofList (if x.isNegative then '-' :: magnitude else magnitude)
  else if x.fraction = 0 then
    if x.isNegative then "-inf" else "inf"
  else
    "NaN"

/-- The text form of the number, which knows one zero. -/
def text (x : Number) : String :=
  if x.isZero then "0" else x.display

end Number

end Abecedary
