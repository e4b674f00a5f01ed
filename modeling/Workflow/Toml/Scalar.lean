import Workflow.Value.Token

/-!
# Scalars of TOML text

Strings in four notations, numbers, and dates and times.  Line ends are line
feeds here; carriage returns in front of them have been dropped.
-/

namespace Workflow.Toml

/-- Characters of strings and comments. -/
def isTextChar (c : Char) : Bool :=
  c == '\t' || (' ' ≤ c && c != '\x7f')

/-- The character that a short escape stands for. -/
def shortEscape? : Char → Option Char
  | 'b' => some '\x08'
  | 't' => some '\t'
  | 'n' => some '\n'
  | 'f' => some '\x0c'
  | 'r' => some '\r'
  | '"' => some '"'
  | '\\' => some '\\'
  | _ => none

/-- The character of a code point in hexadecimal digits; surrogates are
none. -/
def codePoint? (digits : List Char) : Option Char := do
  let value ← digits.foldlM
    (fun value c => do return 16 * value + (← Token.hexValue? c)) 0
  if 0x10FFFF < value || (0xD800 ≤ value && value ≤ 0xDFFF) then none
  else some (Char.ofNat value)

/-- How far a string has been read: plain text, an escape, its digits (in
reverse), a backslash at the end of a line, or the blanks and line ends behind
it. -/
inductive StringState where
  | text
  | escape
  | digits (missing : Nat) (reversed : List Char)
  | lineEnd
  | folding
  deriving DecidableEq, Repr

/-- One character of an escape, with the characters it adds (none as yet, or
one). -/
def escapeStep? (multiline : Bool) (state : StringState) (c : Char) :
    Option (StringState × List Char) :=
  match state with
  | .escape =>
      match shortEscape? c with
      | some character => some (.text, [character])
      | none =>
          if c == 'u' then some (.digits 4 [], [])
          else if c == 'U' then some (.digits 8 [], [])
          else if multiline && (c == ' ' || c == '\t') then some (.lineEnd, [])
          else if multiline && c == '\n' then some (.folding, [])
          else none
  | .digits missing reversed =>
      if (Token.hexValue? c).isNone then none
      else if missing ≤ 1 then
        (codePoint? (c :: reversed).reverse).map fun character =>
          (.text, [character])
      else some (.digits (missing - 1) (c :: reversed), [])
  | .lineEnd =>
      if c == ' ' || c == '\t' then some (.lineEnd, [])
      else if c == '\n' then some (.folding, [])
      else none
  | .text | .folding => none

/-- Reads a string on one line from behind its opening quote. -/
def lineString?
    (quote : Char) (escapes : Bool) (state : StringState)
    (reversed : List Char) : List Char → Option (List Char × List Char)
  | [] => none
  | c :: rest =>
      if state = .text then
        if c == quote then some (reversed.reverse, rest)
        else if escapes && c == '\\' then
          lineString? quote escapes .escape reversed rest
        else if isTextChar c then
          lineString? quote escapes .text (c :: reversed) rest
        else none
      else
        match escapeStep? false state c with
        | some (next, added) =>
            lineString? quote escapes next (added ++ reversed) rest
        | none => none

/-- Reads a string over several lines from behind its opening quotes. `quotes`
is how many quotes have just been read: three end the string, and up to two
more in front of them belong to it. -/
def multilineString?
    (quote : Char) (escapes : Bool) (state : StringState) (quotes : Nat)
    (reversed : List Char) : List Char → Option (List Char × List Char)
  | [] =>
      if 3 ≤ quotes then
        some ((List.replicate (quotes - 3) quote ++ reversed).reverse, [])
      else none
  | c :: rest =>
      if state = .text && c == quote then
        if quotes = 5 then none
        else multilineString? quote escapes .text (quotes + 1) reversed rest
      else if 3 ≤ quotes then
        some
          ((List.replicate (quotes - 3) quote ++ reversed).reverse, c :: rest)
      else
        let before := List.replicate quotes quote ++ reversed
        if state = .folding && (c == ' ' || c == '\t' || c == '\n') then
          multilineString? quote escapes .folding 0 before rest
        else if state = .text || state = .folding then
          if c == quote then multilineString? quote escapes .text 1 before rest
          else if escapes && c == '\\' then
            multilineString? quote escapes .escape 0 before rest
          else if isTextChar c || c == '\n' then
            multilineString? quote escapes .text 0 (c :: before) rest
          else none
        else
          match escapeStep? true state c with
          | some (next, added) =>
              multilineString? quote escapes next 0 (added ++ before) rest
          | none => none

/-- Reads a string over several lines; a line end right behind its opening
quotes is dropped. -/
def multilineBody? (quote : Char) (escapes : Bool) (text : List Char) :
    Option (List Char × List Char) :=
  match text with
  | '\n' :: rest => multilineString? quote escapes .text 0 [] rest
  | other => multilineString? quote escapes .text 0 [] other

/-- Digits of a class with single underscores between them, without the
underscores. -/
def spacedDigits? (isDigit : Char → Bool) : List Char → Option (List Char)
  | [] => none
  | [c] => if isDigit c then some [c] else none
  | c :: '_' :: rest =>
      if isDigit c then (spacedDigits? isDigit rest).map (c :: ·) else none
  | c :: rest =>
      if isDigit c then (spacedDigits? isDigit rest).map (c :: ·) else none

/-- Splits off a sign: whether it is negative, and the rest. -/
def splitSign : List Char → Bool × List Char
  | '+' :: rest => (false, rest)
  | '-' :: rest => (true, rest)
  | other => (false, other)

/-- Decimal digits without a zero in front of others. -/
def wholeDigits? (text : List Char) : Option (List Char) :=
  match text with
  | ['0'] => some ['0']
  | '0' :: _ => none
  | other => spacedDigits? Char.isDigit other

def baseValue? (base : Nat) (text : List Char) : Option Nat := do
  let isDigit (c : Char) : Bool := (Token.hexValue? c).any (· < base)
  let digits ← spacedDigits? isDigit text
  return digits.foldl
    (fun value c => base * value + ((Token.hexValue? c).getD 0)) 0

def integer? (text : List Char) : Option Int := do
  let value : Int ←
    match text with
    | '0' :: 'x' :: digits => (baseValue? 16 digits).map Int.ofNat
    | '0' :: 'o' :: digits => (baseValue? 8 digits).map Int.ofNat
    | '0' :: 'b' :: digits => (baseValue? 2 digits).map Int.ofNat
    | other =>
        let (negative, unsigned) := splitSign other
        (wholeDigits? unsigned).map fun digits =>
          if negative then - (Number.ofDigits digits : Int)
          else Number.ofDigits digits
  if - (Nat.pow 2 63 : Int) ≤ value ∧ value < (Nat.pow 2 63 : Int) then
    some value
  else none

/-- The exponent of a float; zero when there is none. -/
def exponent? : List Char → Option Int
  | [] => some 0
  | mark :: text =>
      let (negative, unsigned) := splitSign text
      if mark == 'e' || mark == 'E' then
        (spacedDigits? Char.isDigit unsigned).map fun digits =>
          if negative then - (Number.ofDigits digits : Int)
          else Number.ofDigits digits
      else none

/-- Whether a text is a float. One beyond the greatest double is none, unless
it is negative. -/
def isFloat (text : List Char) : Bool :=
  let (negative, unsigned) := splitSign text
  let isPart (c : Char) : Bool := c.isDigit || c == '_'
  if unsigned = "inf".toList || unsigned = "nan".toList then true
  else
    let behind := unsigned.dropWhile isPart
    let (fraction, last) :=
      match behind with
      | '.' :: rest =>
          (spacedDigits? Char.isDigit (rest.takeWhile isPart),
            rest.dropWhile isPart)
      | other => (some [], other)
    match wholeDigits? (unsigned.takeWhile isPart), fraction, exponent?
      last with
    | some whole, some fraction, some exponent =>
        !behind.isEmpty && (negative ||
          (Double.ofDecimal? false (Number.ofDigits (whole ++ fraction))
            (exponent - fraction.length)).isSome)
    | _, _, _ => false

/-- The number that exactly two digits stand for, if it lies in a range. -/
def twoDigits (least greatest : Nat) (tens ones : Char) : Bool :=
  let value := Number.ofDigits [tens, ones]
  tens.isDigit && ones.isDigit && least ≤ value && value ≤ greatest

def monthLength (year month : Nat) : Nat :=
  if month = 2 then
    if year % 4 = 0 && (year % 100 ≠ 0 || year % 400 = 0) then 29 else 28
  else if [4, 6, 9, 11].contains month then 30
  else 31

def isDate : List Char → Bool
  | [y1, y2, y3, y4, '-', m1, m2, '-', d1, d2] =>
      [y1, y2, y3, y4].all Char.isDigit && twoDigits 1 12 m1 m2 &&
        twoDigits 1
          (monthLength (Number.ofDigits [y1, y2, y3, y4])
            (Number.ofDigits [m1, m2])) d1 d2
  | _ => false

/-- Whether a text is nothing, or an offset from universal time where one may
stand. -/
def isOffset (allowed : Bool) : List Char → Bool
  | [] => true
  | ['Z'] | ['z'] => allowed
  | [sign, h1, h2, ':', m1, m2] =>
      allowed && (sign == '+' || sign == '-') && twoDigits 0 23 h1 h2 &&
      twoDigits 0 59 m1 m2
  | _ => false

/-- Whether a text is a time, with an offset where one may stand. -/
def isTime (offset : Bool) : List Char → Bool
  | h1 :: h2 :: ':' :: m1 :: m2 :: ':' :: s1 :: s2 :: rest =>
      twoDigits 0 23 h1 h2 && twoDigits 0 59 m1 m2 && twoDigits 0 60 s1 s2 &&
        (match rest with
          | '.' :: behind =>
              behind.head?.any Char.isDigit &&
              isOffset offset (behind.dropWhile Char.isDigit)
          | other => isOffset offset other)
  | _ => false

/-- Whether a text is a date, a time, or both. -/
def isDatetime (text : List Char) : Bool :=
  isDate text || isTime false text ||
    (isDate (text.take 10) &&
      match text.drop 10 with
      | mark :: time =>
          (mark == 'T' || mark == 't' || mark == ' ') && isTime true time
      | [] => false)

end Workflow.Toml
