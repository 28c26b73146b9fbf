import Abecedary.Number.Basic

/-!
# Shortest decimals

The decimal that stands for a number is one with the fewest digits among those that read back as
the number, and the nearest of these. A decimal reads back when it lies in the interval of reals
that round to the number, whose ends belong to it when the mantissa is even. On the grid of
multiples of a power of ten only the two neighbours of the number can be the nearest point, so the
grids are tried from coarse to fine, in exact arithmetic, until a neighbour lies in the interval.
-/

namespace Abecedary

/-- The decimal `digits * 10 ^ exponent`. -/
structure Decimal where
  digits : Nat
  exponent : Int
deriving DecidableEq, Repr

/-- A positive quantity `mantissa * 2 ^ exponent` and the reals around it that round to it, in
quarters of its unit: from `4 * mantissa - below` to `4 * mantissa + 2`. -/
structure Cell where
  mantissa : Nat
  exponent : Int
  below : Nat

namespace Cell

/-- The cell of a finite number other than zero. Under a power of two the numbers lie twice as
close, and the cell ends sooner. -/
def ofNumber (x : Number) : Cell where
  mantissa := x.mantissa
  exponent := x.exponent
  below := if x.fraction = 0 ∧ 1 < x.exponentField then 1 else 2

/-- What one step of the grid of `10 ^ e` measures, when a quarter unit measures `quarter e`. -/
def step (c : Cell) (e : Int) : Nat := Nat.pow 10 e.toNat <<< (2 - c.exponent).toNat

/-- What a quarter unit measures, when one step of the grid measures `step e`. -/
def quarter (c : Cell) (e : Int) : Nat := Nat.pow 10 (-e).toNat <<< (c.exponent - 2).toNat

/-- Whether the grid point `d * 10 ^ e` lies in the cell. -/
def covers (c : Cell) (e : Int) (d : Nat) : Bool :=
  let low := (4 * c.mantissa - c.below) * c.quarter e
  let high := (4 * c.mantissa + 2) * c.quarter e
  let point := d * c.step e
  if c.mantissa % 2 = 0 then low ≤ point && point ≤ high else low < point && point < high

/-- The grid point of `10 ^ e` at or below the quantity. -/
def floor (c : Cell) (e : Int) : Nat := 4 * c.mantissa * c.quarter e / c.step e

/-- The point of the grid of `10 ^ e` that lies in the cell and is nearest to the quantity, if
any does. Half way between two points the upper one is taken. -/
def nearest? (c : Cell) (e : Int) : Option Nat :=
  let d := c.floor e
  let lowerIsNearer := 2 * (4 * c.mantissa * c.quarter e % c.step e) < c.step e
  match c.covers e d, c.covers e (d + 1) with
  | true, true => some (if lowerIsNearer then d else d + 1)
  | true, false => some d
  | false, true => some (d + 1)
  | false, false => none

/-- Tries the grid of `10 ^ e` and up to `n` finer ones, and is content with the last. -/
def search (c : Cell) : (n : Nat) → (e : Int) → Decimal
  | 0, e => ⟨c.floor e, e⟩
  | n + 1, e =>
    match c.nearest? e with
    | some d => ⟨d, e⟩
    | none => c.search n (e - 1)

/-- An exponent whose power of ten is above the quantity: two is below `10 ^ 0.30103`. -/
def ceiling (c : Cell) : Int := (c.mantissa.log2 + 1 + c.exponent) * 30103 / 100000 + 2

/-- The shortest decimal for the quantity. On the finest grid tried the quantity is a point. -/
def shortest (c : Cell) : Decimal :=
  c.search (c.ceiling - min c.exponent 0).toNat c.ceiling

end Cell

end Abecedary
