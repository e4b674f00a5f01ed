import Workflow.Number.Double

/-!
# Decimals read by scaling

A decimal in JSON text is not read as the double nearest to it.  Its digits are
taken as a double, which is then multiplied with or divided by a power of ten,
itself a double.  Each of these steps rounds to the nearest double, so what
comes out may be a neighbour of the double that is nearest to the decimal.
-/

namespace Workflow.Double

def numerator (double : Double) : Nat :=
  double.mantissa * Nat.pow 2 double.exponent.toNat

def denominator (double : Double) : Nat :=
  Nat.pow 2 (-double.exponent).toNat

/-- The rounded product, unless it is beyond the greatest double. -/
def times? (left right : Double) : Option Double :=
  let negative := left.negative != right.negative
  if left.mantissa = 0 || right.mantissa = 0 then some (zero negative)
  else
    ofFraction? negative (left.numerator * right.numerator)
      (left.denominator * right.denominator)

/-- The rounded quotient, unless it is beyond the greatest double or there is
none. -/
def over? (left right : Double) : Option Double :=
  let negative := left.negative != right.negative
  if right.mantissa = 0 then none
  else if left.mantissa = 0 then some (zero negative)
  else
    ofFraction? negative (left.numerator * right.denominator)
      (left.denominator * right.numerator)

/-- Greatest exponent of a power of ten that is within the range of doubles. -/
def maxPower : Nat := 308

def powerOfTen? (exponent : Nat) : Option Double :=
  ofDecimal? false 1 exponent

/-- Divides by the greatest power of ten, again and again, as long as anything
is left. -/
def shrink? : Nat → Double → Option Double
  | 0, double => some double
  | rounds + 1, double =>
      if double.mantissa = 0 then some double
      else do
        let power ← powerOfTen? maxPower
        let smaller ← double.over? power
        shrink? rounds smaller

/-- The double that `± significand · 10 ^ exponent` is scaled to; nothing when
that goes beyond the greatest double. -/
def ofScaled? (negative : Bool) (significand : Nat) (exponent : Int) :
    Option Double := do
  let double ← ofDecimal? negative significand 0
  if exponent < 0 then
    let rounds := (exponent.natAbs - 1) / maxPower
    let smaller ← double.shrink? rounds
    let power ← powerOfTen? (exponent.natAbs - rounds * maxPower)
    smaller.over? power
  else if exponent ≤ maxPower then
    let power ← powerOfTen? exponent.toNat
    double.times? power
  else if double.mantissa = 0 then some double
  else none

end Workflow.Double
