/-!
# Finite doubles

A double is kept as a sign, a mantissa and a binary exponent, never as machine
bits, so that rounding and printing are exact arithmetic on natural numbers.
`Double.ofDecimal?` takes a decimal and gives the double nearest to it, the
even one of two equally near.
-/

namespace Workflow

/-- The double `± mantissa · 2 ^ exponent`. -/
structure Double where
  negative : Bool
  mantissa : Nat
  exponent : Int
  deriving DecidableEq, Repr

namespace Double

/-- Least binary exponent of a double. -/
def minExponent : Int := -1074

/-- Greatest binary exponent of a double. -/
def maxExponent : Int := 971

def zero (negative : Bool) : Double :=
  ⟨negative, 0, minExponent⟩

/-- The quotient rounded to the nearest natural number, the even one of two. -/
def divideToEven (dividend divisor : Nat) : Nat :=
  let quotient := dividend / divisor
  let twice := 2 * (dividend % divisor)
  if twice < divisor then quotient
  else if divisor < twice then quotient + 1
  else quotient + quotient % 2

/-- Scales a fraction by `2 ^ (-exponent)` and rounds it to a natural
number. -/
def scaledMantissa (numerator denominator : Nat) (exponent : Int) : Nat :=
  divideToEven (numerator * Nat.pow 2 (-exponent).toNat)
    (denominator * Nat.pow 2 exponent.toNat)

/-- The exponent at which a positive fraction has a mantissa of 53 bits, or the
least exponent. -/
def fittingExponent (numerator denominator : Nat) : Int :=
  let guess : Int := (numerator.log2 : Int) - (denominator.log2 : Int) - 52
  let scaled := numerator * Nat.pow 2 (-guess).toNat
  let fits := Nat.pow 2 52 * (denominator * Nat.pow 2 guess.toNat) ≤ scaled
  let exponent := if fits then guess else guess - 1
  max exponent minExponent

/-- The double nearest to a positive fraction, unless it is beyond the greatest
one. -/
def ofFraction? (negative : Bool) (numerator denominator : Nat) :
    Option Double :=
  let exponent := fittingExponent numerator denominator
  let mantissa := scaledMantissa numerator denominator exponent
  let rounded : Double :=
    if mantissa = Nat.pow 2 53 then ⟨negative, Nat.pow 2 52, exponent + 1⟩
    else ⟨negative, mantissa, exponent⟩
  if rounded.mantissa = 0 then some (zero negative)
  else if maxExponent < rounded.exponent then none
  else some rounded

/-- Number of decimal digits of a natural number. -/
def decimalLength (n : Nat) : Nat :=
  (Nat.toDigits 10 n).length

/-- The double nearest to `± digits · 10 ^ exponent`; nothing when it is beyond
the greatest double.  Exponents far outside the range of doubles are answered
without computing the power. -/
def ofDecimal? (negative : Bool) (digits : Nat) (exponent : Int) :
    Option Double :=
  let magnitude := exponent + decimalLength digits
  if digits = 0 || magnitude < -330 then some (zero negative)
  else if 310 < magnitude then none
  else ofFraction? negative (digits * Nat.pow 10 exponent.toNat)
    (Nat.pow 10 (-exponent).toNat)

end Double

end Workflow
