/-!
# Quoted strings

The one way in which strings are written, both in canonical documents and in
emitted programs: double quotes around the text, with a backslash in front of
quotes and backslashes, short escapes for the five common controls, and four
hexadecimal digits for every other character below the blank.  Everything else
stands for itself.
-/

namespace Workflow.Text

/-- Lower-case hexadecimal digit of a number below sixteen. -/
def hexDigit (n : Nat) : Char :=
  if n < 10 then Char.ofNat (0x30 + n) else Char.ofNat (0x57 + n)

/-- Lower-case hexadecimal digits of a number, without leading zeros. -/
def hexDigits (n : Nat) : List Char :=
  if _small : n < 16 then [hexDigit n]
  else hexDigits (n / 16) ++ [hexDigit (n % 16)]
termination_by n
decreasing_by omega

/-- How one character is written between quotes. -/
def escape (c : Char) : List Char :=
  if c = '"' then ['\\', '"']
  else if c = '\\' then ['\\', '\\']
  else if c = '\x08' then ['\\', 'b']
  else if c = '\t' then ['\\', 't']
  else if c = '\n' then ['\\', 'n']
  else if c = '\x0c' then ['\\', 'f']
  else if c = '\r' then ['\\', 'r']
  else if c.toNat < 0x20 then
    ['\\', 'u', '0', '0', hexDigit (c.toNat / 16), hexDigit (c.toNat % 16)]
  else [c]

def quotedChars (text : List Char) : List Char :=
  '"' :: (text.flatMap escape ++ ['"'])

/-- The text between double quotes, as a string. -/
def quoted (text : String) : String :=
  String.ofList (quotedChars text.toList)

end Workflow.Text
