import Workflow.Yaml.Token

/-!
# What plain scalars mean

A plain scalar is null, a truth value, an integer, a floating-point number, or
else a text; other scalars are texts.  Integers are decimal, hexadecimal, octal
or binary; those that neither 64-bit type holds, but a 128-bit type does, are
refused.  Digits behind a leading zero are a text.
-/

namespace Workflow.Yaml

def isNullText (text : String) : Bool :=
  ["null", "Null", "NULL", "~"].contains text

/-- The truth value that a text stands for. -/
def boolean? (text : String) : Option Bool :=
  if ["true", "True", "TRUE"].contains text then some true
  else if ["false", "False", "FALSE"].contains text then some false
  else none

def dropPlus : List Char → List Char
  | '+' :: rest => rest
  | other => other

/-- Whether a text consists of a zero and further digits, behind a sign or
not. -/
def isZeroPadded (text : List Char) : Bool :=
  let unsigned :=
    match text with
    | '+' :: rest | '-' :: rest => rest
    | other => other
  match unsigned with
  | '0' :: rest => !rest.isEmpty && rest.all Char.isDigit
  | _ => false

/-- The value of digits of a base, of which there is at least one. -/
def digitsValue? (base : Nat) (digits : List Char) : Option Nat :=
  let add (value : Nat) (c : Char) : Option Nat := do
    let digit ← Token.hexValue? c
    if digit < base then some (base * value + digit) else none
  if digits.isEmpty then none else digits.foldlM add 0

/-- The value of digits behind the mark of a base. -/
def marked? : List Char → Option Nat
  | '0' :: 'x' :: digits => digitsValue? 16 digits
  | '0' :: 'o' :: digits => digitsValue? 8 digits
  | '0' :: 'b' :: digits => digitsValue? 2 digits
  | _ => none

/-- An integer that is written without a minus sign. -/
def unsigned? (text : List Char) : Option Nat :=
  match marked? (dropPlus text) with
  | some value => some value
  | none => if isZeroPadded text then none else digitsValue? 10 (dropPlus text)

/-- The magnitude of an integer that is written with a minus sign. -/
def negative? : List Char → Option Nat
  | '-' :: text =>
      match marked? text with
      | some value => some value
      | none => if isZeroPadded text then none else digitsValue? 10 text
  | _ => none

inductive IntegerReading where
  | integer (value : Int)
  | outOfRange
  | notInteger

/-- Reads an integer. Beyond 128 bits it is not one. -/
def readInteger (text : List Char) : IntegerReading :=
  match unsigned? text, negative? text with
  | some value, _ =>
      if value < Nat.pow 2 64 then .integer value
      else if value < Nat.pow 2 128 then .outOfRange
      else .notInteger
  | none, some magnitude =>
      if magnitude ≤ Nat.pow 2 63 then .integer (- (magnitude : Int))
      else if magnitude ≤ Nat.pow 2 127 then .outOfRange
      else .notInteger
  | none, none => .notInteger

/-- A floating-point number: finite, or one of those that are not. -/
inductive FloatReading where
  | finite (value : Double)
  | notFinite

/-- The digits before and behind a point; there is one at least. -/
def pointedDigits? (text : List Char) : Option (List Char × List Char) :=
  let whole := text.takeWhile (· != '.')
  let fraction := (text.dropWhile (· != '.')).drop 1
  if (whole ++ fraction).isEmpty || !(whole ++ fraction).all Char.isDigit then
    none
  else some (whole, fraction)

/-- A decimal with a point or an exponent or without, as the nearest double. -/
def decimal? (negative : Bool) (text : List Char) : Option Double := do
  let (mantissa, exponent) ← Number.splitExponent? text
  let (whole, fraction) ← pointedDigits? mantissa
  Double.ofDecimal? negative (Number.ofDigits (whole ++ fraction))
    (exponent - fraction.length)

def float? (text : String) : Option FloatReading :=
  let unsigned := String.ofList (dropPlus text.toList)
  if [".inf", ".Inf", ".INF"].contains unsigned ||
      ["-.inf", "-.Inf", "-.INF", ".nan", ".NaN", ".NAN"].contains text then
    some .notFinite
  else
    match text.toList with
    | '+' :: rest => (decimal? false rest).map .finite
    | '-' :: rest => (decimal? true rest).map .finite
    | other => (decimal? false other).map .finite

/-- The value of a floating-point number; one that is not finite has none. -/
def FloatReading.toValue : FloatReading → Value
  | .finite value => .number (.double value)
  | .notFinite => .null

def plainValue? (text : String) : Option Value :=
  if text = "" || isNullText text then some .null
  else
    match boolean? text with
    | some value => some (.bool value)
    | none =>
        match readInteger text.toList with
        | .integer value => some (.number (.integer value))
        | .outOfRange => none
        | .notInteger =>
            if isZeroPadded text.toList then some (.string text)
            else some
              (((float? text).map FloatReading.toValue).getD (.string text))

/-- The value of a scalar with a tag of the schema; any other tag makes it a
text. -/
def taggedValue? (tag : List UInt8) (text : String) : Option Value :=
  if tag = octetsOf "tag:yaml.org,2002:bool" then (boolean? text).map .bool
  else if tag = octetsOf "tag:yaml.org,2002:int" then
    match readInteger text.toList with
    | .integer value => some (.number (.integer value))
    | _ => none
  else if tag = octetsOf "tag:yaml.org,2002:float" then
    (float? text).map FloatReading.toValue
  else if tag = octetsOf "tag:yaml.org,2002:null" then
    if isNullText text then some .null else none
  else some (.string text)

end Workflow.Yaml
