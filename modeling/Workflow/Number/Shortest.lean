import Workflow.Number.Double

/-!
# Shortest decimal of a double

The decimal printed for a double is the one with the fewest digits among those
that read back as the same double; of several it is the nearest, and of two
equally near the even one.  The search tries the two neighbours of the exact
value on the grid of one-digit decimals, then on the grid of two-digit
decimals, and so on, all in exact arithmetic: seventeen digits always suffice.
-/

namespace Workflow

/-- The decimal `digits · 10 ^ exponent`. -/
structure Decimal where
  digits : Nat
  exponent : Int
  deriving DecidableEq, Repr

namespace Double

/-- A grid of decimals beside a double, all on one scale: `step` is the
distance of two points of the grid, `quarter` a quarter of the distance of two
doubles, and `value` is the double. -/
structure Grid where
  step : Nat
  quarter : Nat
  value : Nat

/-- The grid of the multiples of `10 ^ exponent`. -/
def grid (double : Double) (exponent : Int) : Grid :=
  let quarter :=
    Nat.pow 2 (double.exponent - 2).toNat * Nat.pow 10 (-exponent).toNat
  { step := Nat.pow 10 exponent.toNat * Nat.pow 2 (2 - double.exponent).toNat
    quarter := quarter
    value := 4 * double.mantissa * quarter }

/-- Whether a point of the grid reads back as the double: it is less than half
the distance to the next double away, or exactly half of it when the mantissa
is even. -/
def readsBack (double : Double) (grid : Grid) (point : Nat) : Bool :=
  let below := if double.mantissa = Nat.pow 2 52 && minExponent <
    double.exponent then 1 else 2
  let low := grid.value - below * grid.quarter
  let high := grid.value + 2 * grid.quarter
  let position := point * grid.step
  if double.mantissa % 2 = 0 then low ≤ position && position ≤ high
  else low < position && position < high

/-- The better of the two neighbours of the double on the grid, if one of them
reads back. -/
def nearest? (double : Double) (grid : Grid) : Option Nat :=
  let lower := grid.value / grid.step
  let remainder := grid.value % grid.step
  match double.readsBack grid lower, double.readsBack grid (lower + 1) with
  | true, true =>
      if 2 * remainder < grid.step then some lower
      else if grid.step < 2 * remainder then some (lower + 1)
      else some (lower + lower % 2)
  | true, false => some lower
  | false, true => some (lower + 1)
  | false, false => none

/-- The decimal exponent of the leading digit of a double that is not zero. -/
def leadingExponent (double : Double) : Int :=
  let scaled :=
    double.mantissa * Nat.pow 2 double.exponent.toNat * Nat.pow 10 330 /
      Nat.pow 2 (-double.exponent).toNat
  (decimalLength scaled : Int) - 331

/-- Moves trailing zeros of the digits into the exponent, at most `fuel` of
them. -/
def stripZeros : Nat → Decimal → Decimal
  | 0, decimal => decimal
  | fuel + 1, decimal =>
      if decimal.digits ≠ 0 ∧ decimal.digits % 10 = 0 then
        stripZeros fuel ⟨decimal.digits / 10, decimal.exponent + 1⟩
      else decimal

/-- The first grid with a hit, from the one whose decimals have `17 - left`
digits on. -/
def shortestFrom (double : Double) (leading : Int) : Nat → Decimal
  | 0 => ⟨double.mantissa, double.exponent⟩
  | left + 1 =>
      let exponent := leading - (16 - left : Int)
      match double.nearest? (double.grid exponent) with
      | some point => stripZeros 20 ⟨point, exponent⟩
      | none => shortestFrom double leading left

/-- The shortest decimal that reads back as the double, sign apart. -/
def shortest (double : Double) : Decimal :=
  if double.mantissa = 0 then ⟨0, 0⟩
  else double.shortestFrom double.leadingExponent 17

end Double

end Workflow
