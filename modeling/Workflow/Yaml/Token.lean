import Workflow.Value.Token
import Workflow.Yaml.Cursor

/-!
# Tokens of YAML text

The tokens, and the readers of those that name things: anchors, aliases, tags
and directives.  Block structure has tokens of its own, which stand for changes
of indentation.  A tag is a sequence of octets, because its escapes need not
make up characters; it ends where an octet is zero.
-/

namespace Workflow.Yaml

inductive Token where
  | versionDirective (major minor : Nat)
  | tagDirective (handle : String) (expansion : List UInt8)
  | documentStart
  | documentEnd
  | blockSequenceStart
  | blockMappingStart
  | blockEnd
  | flowSequenceStart
  | flowSequenceEnd
  | flowMappingStart
  | flowMappingEnd
  | blockEntry
  | flowEntry
  | key
  | value
  | aliasOf (name : String)
  | anchor (name : String)
  | tag (handle : String) (suffix : List UInt8)
  | scalar (text : String) (plain : Bool)
  deriving DecidableEq, Repr

/-- Reads the name of an anchor or of an alias from behind its indicator. -/
def anchorName? (cursor : Cursor) : Option (String × Cursor) :=
  let (name, behind) := cursor.span isNamePart
  let ended := endsWord behind.rest ||
    behind.rest.head?.any fun c =>
      ['?', ':', ',', ']', '\x7d', '%', '@', '\x60'].contains c
  if name.isEmpty || !ended then none else some (String.ofList name, behind)

/-- Characters of the part of a tag that follows its handle; some of them only
in tags that are written out. -/
def isTagPart (verbatim : Bool) (c : Char) : Bool :=
  isNamePart c || ";/?:@&=+$.!~*'()%".toList.contains c ||
  (verbatim && ",[]".toList.contains c)

def octet? : List Char → Option (Nat × List Char)
  | '%' :: high :: low :: rest => do
      return (16 * (← Workflow.Token.hexValue? high) +
          (← Workflow.Token.hexValue? low), rest)
  | _ => none

def octetsOf (text : String) : List UInt8 :=
  text.toUTF8.toList

/-- Further octets of an escaped character. -/
def laterOctets? : Nat → List Char → Option (List UInt8 × List Char)
  | 0, rest => some ([], rest)
  | missing + 1, text => do
      let (octet, rest) ← octet? text
      if octet / 64 = 2 then
        let (later, behind) ← laterOctets? missing rest
        return (octet.toUInt8 :: later, behind)
      else none

/-- How many octets follow the first one of a character. -/
def missingOctets? (first : Nat) : Option Nat :=
  if first < 0x80 then some 0
  else if first / 32 = 6 then some 1
  else if first / 16 = 14 then some 2
  else if first / 8 = 30 then some 3
  else none

/-- The octets of one character, written as escapes. Only their number is
checked: that they make up a character is not. -/
def escapedOctets? (text : List Char) : Option (List UInt8 × List Char) := do
  let (first, rest) ← octet? text
  let (later, behind) ← laterOctets? (← missingOctets? first) rest
  return (first.toUInt8 :: later, behind)

/-- The octets of a part of a tag of at most `length` characters. -/
def tagOctets? : Nat → List Char → Option (List UInt8)
  | _, [] => some []
  | 0, _ => none
  | length + 1, c :: rest =>
      if c == '%' then do
        let (octets, behind) ← escapedOctets? (c :: rest)
        return octets ++ (← tagOctets? length behind)
      else return c.toNat.toUInt8 :: (← tagOctets? length rest)

/-- Reads the part of a tag that follows its handle, up to an octet that is
zero. -/
def tagPart? (verbatim : Bool) (cursor : Cursor) :
    Option (List UInt8 × Cursor) := do
  let (part, behind) := cursor.span (isTagPart verbatim)
  let octets ← tagOctets? part.length part
  return (octets.takeWhile (· != 0), behind)

/-- Reads a part of a tag that has to be there. -/
def requiredTagPart? (verbatim : Bool) (cursor : Cursor) :
    Option (List UInt8 × Cursor) :=
  if cursor.rest.head?.any (isTagPart verbatim) then tagPart? verbatim cursor
  else none

/-- Reads a tag that is written out, from behind its opening bracket. -/
def verbatimTag? (cursor : Cursor) : Option (Token × Cursor) := do
  let (part, behind) ← requiredTagPart? true cursor
  match behind.rest with
  | '>' :: _ => some (.tag "" part, behind.next)
  | _ => none

/-- Reads a tag of a handle and a suffix, or of a suffix alone, from behind the
exclamation mark that opens it. -/
def shorthandTag? (cursor : Cursor) : Option (Token × Cursor) := do
  let (name, behind) := cursor.span isNamePart
  match behind.rest with
  | '!' :: _ =>
      let (part, behind) ← requiredTagPart? false behind.next
      some (.tag ("!" ++ String.ofList name ++ "!") part, behind)
  | _ =>
      let (part, behind) ← tagPart? false behind
      match octetsOf (String.ofList name) ++ part with
      | [] => some (.tag "" (octetsOf "!"), behind)
      | suffix => some (.tag "!" suffix, behind)

/-- Reads a tag from behind the exclamation mark that opens it. -/
def tag? (inFlow : Bool) (cursor : Cursor) : Option (Token × Cursor) := do
  let (token, behind) ←
    match cursor.rest with
    | '<' :: _ => verbatimTag? cursor.next
    | _ => shorthandTag? cursor
  if endsWord behind.rest || (inFlow && behind.rest.head? == some ',') then
    some (token, behind)
  else none

def versionNumber? (cursor : Cursor) : Option (Nat × Cursor) :=
  let (digits, behind) := cursor.span Char.isDigit
  if digits.isEmpty || 9 < digits.length then none
  else some (Number.ofDigits digits, behind)

/-- Reads the version of a directive. -/
def versionDirective? (cursor : Cursor) : Option (Token × Cursor) := do
  let (major, behind) ← versionNumber? (cursor.skipWhile isGap)
  match behind.rest with
  | '.' :: _ =>
      let (minor, behind) ← versionNumber? behind.next
      some (.versionDirective major minor, behind)
  | _ => none

def tagHandle? (cursor : Cursor) : Option (List Char × Cursor) :=
  match cursor.rest with
  | '!' :: _ =>
      let (name, behind) := cursor.next.span isNamePart
      match behind.rest with
      | '!' :: _ => some ('!' :: name ++ ['!'], behind.next)
      | _ => if name.isEmpty then some (['!'], behind) else none
  | _ => none

/-- Reads what a directive lets a handle stand for. -/
def tagDirective? (cursor : Cursor) : Option (Token × Cursor) := do
  let (handle, behind) ← tagHandle? (cursor.skipWhile isGap)
  if !behind.rest.head?.any isGap then none
  else
    let (expansion, behind) ← requiredTagPart? true (behind.skipWhile isGap)
    if !endsWord behind.rest then none
    else some (.tagDirective (String.ofList handle) expansion, behind)

/-- Reads a directive from behind the percent sign that opens it, up to the end
of its line. -/
def directive? (cursor : Cursor) : Option (Token × Cursor) := do
  let (name, behind) := cursor.span isNamePart
  if !endsWord behind.rest then none
  else
    let (token, behind) ←
      if name = "YAML".toList then versionDirective? behind
      else if name = "TAG".toList then tagDirective? behind
      else none
    return (token, ← behind.finishLine?)

end Workflow.Yaml
