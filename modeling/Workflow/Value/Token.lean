import Workflow.Number.Scaled
import Workflow.Text.Quoted
import Workflow.Value.Basic

/-!
# Tokens of JSON text

Between reading and writing stands the list of tokens.  A token knows how it is
written, and `Token.lex?` cuts a text into tokens, skipping blanks.
-/

namespace Workflow

namespace Number

def integerChars (value : Int) : List Char :=
  if value < 0 then '-' :: Nat.toDigits 10 value.natAbs
  else Nat.toDigits 10 value.natAbs

/-- A shortest decimal is written out in full, with at least one place, when
its point lies behind at most sixteen digits or at most four leading zeros;
else with an exponent. -/
def decimalChars (decimal : Decimal) : List Char :=
  let digits := Nat.toDigits 10 decimal.digits
  let point : Int := digits.length + decimal.exponent
  if 0 ≤ decimal.exponent ∧ point ≤ 16 then
    digits ++ List.replicate decimal.exponent.toNat '0' ++ ['.', '0']
  else if 0 < point ∧ point ≤ 16 then
    digits.take point.toNat ++ '.' :: digits.drop point.toNat
  else if -5 < point ∧ point ≤ 0 then
    '0' :: '.' :: (List.replicate (-point).toNat '0' ++ digits)
  else
    let exponent := point - 1
    let sign := if exponent < 0 then '-' else '+'
    let fraction := if digits.length ≤ 1 then [] else '.' :: digits.drop 1
    digits.take 1 ++ fraction ++ 'e' :: sign :: Nat.toDigits 10 exponent.natAbs

/-- How a number is written, in documents and in programs. -/
def chars : Number → List Char
  | .integer value => integerChars value
  | .double value =>
      if value.negative then '-' :: decimalChars value.shortest
      else decimalChars value.shortest

/-- How a number is written, as a string. -/
def render (number : Number) : String :=
  String.ofList number.chars

def digitValue (digit : Char) : Nat :=
  digit.toNat - 0x30

/-- Value of a run of decimal digits. -/
def ofDigits (digits : List Char) : Nat :=
  digits.foldl (fun value digit => 10 * value + digitValue digit) 0

/-- A sign in front of an exponent, and the digits behind it. -/
def exponentOf? (text : List Char) : Option Int :=
  let unsigned? (digits : List Char) : Option Nat :=
    if !digits.isEmpty && digits.all Char.isDigit then some (ofDigits digits)
    else none
  match text with
  | '+' :: digits => (unsigned? digits).map Int.ofNat
  | '-' :: digits =>
      (unsigned? digits).map fun magnitude => - Int.ofNat magnitude
  | digits => (unsigned? digits).map Int.ofNat

/-- Splits off an exponent, which is zero when there is none. -/
def splitExponent? (text : List Char) : Option (List Char × Int) :=
  let isMark (c : Char) : Bool := c == 'e' || c == 'E'
  match text.dropWhile (!isMark ·) with
  | [] => some (text, 0)
  | _ :: exponent => (exponentOf? exponent).map (text.takeWhile (!isMark ·), ·)

/-- Splits off the digits behind the point, of which there is at least one if
there is a point. -/
def splitFraction? (text : List Char) : Option (List Char × List Char) :=
  match text.dropWhile (· != '.') with
  | [] => some (text, [])
  | _ :: fraction =>
      if !fraction.isEmpty && fraction.all Char.isDigit then
        some (text.takeWhile (· != '.'), fraction)
      else none

/-- Digits in front of the point: at least one, and no zero in front of
others. -/
def isWhole (digits : List Char) : Bool :=
  !digits.isEmpty && digits.all Char.isDigit &&
  (digits.length == 1 || digits.head? != some '0')

/-- Reads digits in front of the point behind those read so far, as long as 64
bits hold the number; of the others only how many they are. -/
def readWhole (significand : Nat) : List Char → Nat × Nat
  | [] => (significand, 0)
  | digit :: rest =>
      let longer := 10 * significand + digitValue digit
      if longer < Nat.pow 2 64 then readWhole longer rest
      else (significand, rest.length + 1)

/-- Reads digits behind the point behind those read so far, as long as 64 bits
hold the number, and drops the others. -/
def readFraction (significand : Nat) (exponent : Int) :
    List Char → Nat × Int
  | [] => (significand, exponent)
  | digit :: rest =>
      let longer := 10 * significand + digitValue digit
      if longer < Nat.pow 2 64 then readFraction longer (exponent - 1) rest
      else (significand, exponent)

/-- An integer literal whose magnitude 64 bits hold is an integer, unless it is
negative and zero, or too great to be negative: then it is a double. -/
def ofInteger? (negative : Bool) (magnitude : Nat) : Option Number :=
  if negative then
    if 0 < magnitude ∧ magnitude ≤ Nat.pow 2 63 then
      some (.integer (- (magnitude : Int)))
    else (Double.ofDecimal? true magnitude 0).map .double
  else some (.integer magnitude)

/-- A number in the notation of JSON. -/
def ofJson? (text : List Char) : Option Number := do
  let (negative, unsigned) :=
    match text with
    | '-' :: rest => (true, rest)
    | other => (false, other)
  let (mantissa, exponent) ← splitExponent? unsigned
  let (whole, fraction) ← splitFraction? mantissa
  if !isWhole whole then none
  else
    let (significand, left) := readWhole 0 whole
    if whole.length = unsigned.length ∧ left = 0 then
      ofInteger? negative significand
    else
      let (digits, places) := readFraction significand left fraction
      (Double.ofScaled? negative digits (places + exponent)).map .double

end Number

inductive Token where
  | leftBrace
  | rightBrace
  | leftBracket
  | rightBracket
  | comma
  | colon
  | null
  | bool (value : Bool)
  | number (value : Number)
  | text (value : String)
  deriving DecidableEq, Repr

namespace Token

def chars : Token → List Char
  | .leftBrace => ['\x7b']
  | .rightBrace => ['\x7d']
  | .leftBracket => ['[']
  | .rightBracket => [']']
  | .comma => [',']
  | .colon => [':']
  | .null => "null".toList
  | .bool true => "true".toList
  | .bool false => "false".toList
  | .number value => value.chars
  | .text value => Text.quotedChars value.toList

def hexValue? (c : Char) : Option Nat :=
  if c.isDigit then some (c.toNat - 0x30)
  else if 'a' ≤ c ∧ c ≤ 'f' then some (c.toNat - 0x57)
  else if 'A' ≤ c ∧ c ≤ 'F' then some (c.toNat - 0x37)
  else none

/-- Value of four hexadecimal digits. -/
def hexValue4? (a b c d : Char) : Option Nat := do
  let a ← hexValue? a
  let b ← hexValue? b
  let c ← hexValue? c
  let d ← hexValue? d
  return ((a * 16 + b) * 16 + c) * 16 + d

/-- The character a one-letter escape stands for. -/
def shortEscape? (c : Char) : Option Char :=
  match c with
  | '"' => some '"'
  | '\\' => some '\\'
  | '/' => some '/'
  | 'b' => some '\x08'
  | 'f' => some '\x0c'
  | 'n' => some '\n'
  | 'r' => some '\r'
  | 't' => some '\t'
  | _ => none

/-- The inside of a quoted string up to its closing quote, and the text behind
that quote.  A character beyond the basic plane may be escaped as a pair of
surrogates, and no surrogate may stand alone. -/
def unquote? (reversed : List Char) :
    List Char → Option (List Char × List Char)
  | [] => none
  | '"' :: rest => some (reversed.reverse, rest)
  | '\\' :: 'u' :: a :: b :: c :: d :: rest =>
      match hexValue4? a b c d with
      | none => none
      | some code =>
          if 0xD800 ≤ code ∧ code < 0xDC00 then
            match rest with
            | '\\' :: 'u' :: e :: f :: g :: h :: after =>
                match hexValue4? e f g h with
                | none => none
                | some low =>
                    if 0xDC00 ≤ low ∧ low < 0xE000 then
                      let joined :=
                        0x10000 + (code - 0xD800) * 0x400 + (low - 0xDC00)
                      unquote? (Char.ofNat joined :: reversed) after
                    else none
            | _ => none
          else if 0xDC00 ≤ code ∧ code < 0xE000 then none
          else unquote? (Char.ofNat code :: reversed) rest
  | '\\' :: c :: rest =>
      match shortEscape? c with
      | some meant => unquote? (meant :: reversed) rest
      | none => none
  | c :: rest => if c.toNat < 0x20 then none else unquote? (c :: reversed) rest

/-- What stands behind the closing quote is shorter than what stood behind the
opening one. -/
theorem length_unquote?
    {reversed input value rest : List Char}
    (read : unquote? reversed input = some (value, rest)) :
    rest.length < input.length := by
  fun_induction unquote? reversed input <;> simp_all <;> omega

/-- Characters that may occur in a number. -/
def isNumberChar (c : Char) : Bool :=
  c.isDigit || c == '-' || c == '+' || c == '.' || c == 'e' || c == 'E'

/-- The tokens of a text, behind those already found (in reverse). -/
def lexFrom? (found : List Token) (input : List Char) : Option (List Token) :=
  match input with
  | [] => some found.reverse
  | ' ' :: rest => lexFrom? found rest
  | '\t' :: rest => lexFrom? found rest
  | '\n' :: rest => lexFrom? found rest
  | '\r' :: rest => lexFrom? found rest
  | '\x7b' :: rest => lexFrom? (.leftBrace :: found) rest
  | '\x7d' :: rest => lexFrom? (.rightBrace :: found) rest
  | '[' :: rest => lexFrom? (.leftBracket :: found) rest
  | ']' :: rest => lexFrom? (.rightBracket :: found) rest
  | ',' :: rest => lexFrom? (.comma :: found) rest
  | ':' :: rest => lexFrom? (.colon :: found) rest
  | '"' :: rest =>
      match _read : unquote? [] rest with
      | some (value, after) =>
          lexFrom? (.text (String.ofList value) :: found) after
      | none => none
  | 'n' :: 'u' :: 'l' :: 'l' :: rest => lexFrom? (.null :: found) rest
  | 't' :: 'r' :: 'u' :: 'e' :: rest => lexFrom? (.bool true :: found) rest
  | 'f' :: 'a' :: 'l' :: 's' :: 'e' :: rest =>
      lexFrom? (.bool false :: found) rest
  | c :: rest =>
      if c.isDigit || c == '-' then
        match Number.ofJson? (c :: rest.takeWhile isNumberChar) with
        | some value =>
            lexFrom? (.number value :: found) (rest.dropWhile isNumberChar)
        | none => none
      else none
termination_by input.length
decreasing_by
  all_goals simp_wf
  all_goals try omega
  · have := length_unquote? _read
    omega
  · have := (List.dropWhile_sublist isNumberChar (l := rest)).length_le
    omega

def lex? (input : List Char) : Option (List Token) :=
  lexFrom? [] input

end Token

end Workflow
