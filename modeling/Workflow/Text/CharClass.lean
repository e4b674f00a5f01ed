import Workflow.Text.WordRanges

/-!
# Character classes

Documents may hold any Unicode text, so the classes that decide acceptance are
those of the Unicode standard rather than the ASCII ones: blanks are the
characters with the `White_Space` property, controls are the category `Cc`,
decimal digits are the category `Nd`.  Names of the workflow language itself
are ASCII, and use the classes of the standard library.
-/

namespace Workflow.Text

/-- Blank characters: exactly those with the `White_Space` property. -/
def isBlank (c : Char) : Bool :=
  let code := c.toNat
  (0x9 ≤ code && code ≤ 0xD) || code == 0x20 || code == 0x85 || code == 0xA0 ||
    code == 0x1680 || (0x2000 ≤ code && code ≤ 0x200A) || code == 0x2028 ||
    code == 0x2029 ||
    code == 0x202F || code == 0x205F || code == 0x3000

/-- Control characters, the general category `Cc`. -/
def isControl (c : Char) : Bool :=
  let code := c.toNat
  code < 0x20 || (0x7F ≤ code && code ≤ 0x9F)

/-- Code point of the zero of every run of ten decimal digits. -/
def decimalZeros : List Nat :=
  [
   0x30, 0x660, 0x6F0, 0x7C0, 0x966, 0x9E6, 0xA66, 0xAE6, 0xB66, 0xBE6, 0xC66,
   0xCE6, 0xD66,
   0xDE6, 0xE50, 0xED0, 0xF20, 0x1040, 0x1090, 0x17E0, 0x1810, 0x1946, 0x19D0,
   0x1A80, 0x1A90,
   0x1B50, 0x1BB0, 0x1C40, 0x1C50, 0xA620, 0xA8D0, 0xA900, 0xA9D0, 0xA9F0,
   0xAA50, 0xABF0,
   0xFF10, 0x104A0, 0x10D30, 0x10D40, 0x11066, 0x110F0, 0x11136, 0x111D0,
   0x112F0, 0x11450,
   0x114D0, 0x11650, 0x116C0, 0x116D0, 0x116DA, 0x11730, 0x118E0, 0x11950,
   0x11BF0, 0x11C50,
   0x11D50, 0x11DA0, 0x11F50, 0x16130, 0x16A60, 0x16AC0, 0x16B50, 0x16D70,
   0x1CCF0, 0x1D7CE,
   0x1D7D8, 0x1D7E2, 0x1D7EC, 0x1D7F6, 0x1E140, 0x1E2F0, 0x1E4F0, 0x1E5F1,
   0x1E950, 0x1FBF0
  ]

/-- Decimal digits of any script, the general category `Nd`. -/
def isDecimalDigit (c : Char) : Bool :=
  decimalZeros.any fun first => first ≤ c.toNat && c.toNat < first + 10

/-- Letters, marks, digits and connectors: what a word is made of. -/
def isWordChar (c : Char) : Bool :=
  c.isAlphanum || c == '_' ||
    (0x7F < c.toNat &&
      wordRanges.any fun range => range.1 ≤ c.toNat && c.toNat ≤ range.2)

end Workflow.Text
