/-!
# Numbers

A `Number` is a 64-bit binary floating-point number, held as its bits so that two numbers are equal
when every bit of them is: zero and negative zero differ, and so do the many NaNs. Arithmetic and
comparison are those of the standard, which round to nearest and put a NaN outside of every order.
`Number.ofInt64` rounds a whole number to the nearest number, a half to the even neighbour.
-/

namespace Abecedary

/-- A floating-point number of 64 bits: sign, 11 bits of exponent, 52 bits of fraction. -/
structure Number where
  bits : UInt64
deriving DecidableEq, Repr

namespace Number

/-- Positive zero. -/
def zero : Number := ⟨0⟩

/-- One. -/
def one : Number := ⟨0x3FF0000000000000⟩

/-- Whether the number is zero of either sign. -/
def isZero (x : Number) : Bool := x.bits = 0 || x.bits = 0x8000000000000000

/-! ## Arithmetic -/

/-- The number as the machine computes with it. -/
def toFloat (x : Number) : Float := Float.ofBits x.bits

/-- The number of a result of the machine. -/
def ofFloat (f : Float) : Number := ⟨f.toBits⟩

/-- The sum, rounded to nearest. -/
def add (x y : Number) : Number := ofFloat (x.toFloat + y.toFloat)

/-- The difference, rounded to nearest. -/
def sub (x y : Number) : Number := ofFloat (x.toFloat - y.toFloat)

/-- Whether one number is less than another; never so with a NaN. -/
def lt (x y : Number) : Bool := x.toFloat < y.toFloat

/-- Whether two numbers are the same quantity: the zeros are, and a NaN is none. -/
def sameQuantity (x y : Number) : Bool := x.toFloat == y.toFloat

/-! ## Parts -/

/-- Whether the sign bit is set. -/
def isNegative (x : Number) : Bool := x.bits.toNat >>> 63 = 1

/-- The exponent field. -/
def exponentField (x : Number) : Nat := (x.bits.toNat >>> 52) % 2048

/-- The fraction field. -/
def fraction (x : Number) : Nat := x.bits.toNat % (1 <<< 52)

/-- Whether the number is neither an infinity nor a NaN. -/
def isFinite (x : Number) : Bool := x.exponentField ≠ 2047

/-- The mantissa of a finite number, as a whole number. -/
def mantissa (x : Number) : Nat :=
  if x.exponentField = 0 then x.fraction else (1 <<< 52) + x.fraction

/-- The power of two that goes with the mantissa. -/
def exponent (x : Number) : Int := (max x.exponentField 1 : Nat) - 1075

/-! ## Whole numbers -/

/-- A whole number without its last `s` binary places, rounded to nearest and a half to the even
neighbour. -/
def shiftRound (m s : Nat) : Nat :=
  let unit := 1 <<< s
  let quotient := m >>> s
  let remainder := m % unit
  if unit < 2 * remainder ∨ (unit = 2 * remainder ∧ quotient % 2 = 1) then quotient + 1
  else quotient

/-- The bits of the number nearest to a whole number. The leading one of the mantissa, and a
carry out of it by rounding, add to the exponent field. -/
def wholeBits (m : Nat) : Nat :=
  if m = 0 then 0
  else
    let k := m.log2
    ((k + 1022) <<< 52) + (if k ≤ 52 then m <<< (52 - k) else shiftRound m (k - 52))

/-- The number nearest to a whole number. -/
def ofInt64 (n : Int64) : Number :=
  let magnitude := wholeBits n.toInt.natAbs
  ⟨UInt64.ofNat (if n.toInt < 0 then (1 <<< 63) + magnitude else magnitude)⟩

end Number

end Abecedary
