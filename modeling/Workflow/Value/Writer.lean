import Workflow.Value.Token

/-!
# Writing JSON

Values are written in two layouts.  The compact one has no blanks at all; the
other puts every item and every member on a line of its own, two blanks deeper
than its container, and leaves empty containers on one line.
-/

namespace Workflow.Value

mutual

def tokens : Value → List Token
  | .null => [.null]
  | .bool value => [.bool value]
  | .number value => [.number value]
  | .string text => [.text text]
  | .array items => .leftBracket :: (tokensList items ++ [.rightBracket])
  | .object members => .leftBrace :: (tokensMembers members ++ [.rightBrace])

def tokensList : List Value → List Token
  | [] => []
  | [item] => tokens item
  | item :: rest => tokens item ++ .comma :: tokensList rest

def tokensMembers : List (String × Value) → List Token
  | [] => []
  | [(key, value)] => .text key :: .colon :: tokens value
  | (key, value) :: rest =>
      .text key :: .colon :: (tokens value ++ .comma :: tokensMembers rest)

end

def compact (value : Value) : String :=
  String.ofList (value.tokens.flatMap Token.chars)

/-- The start of a line at a nesting level. -/
def indentation (level : Nat) : List Char :=
  '\n' :: List.replicate (2 * level) ' '

mutual

/-- Characters of the layout with one item a line, at a nesting level. -/
def prettyChars (level : Nat) : Value → List Char
  | .array [] => ['[', ']']
  | .array (item :: items) =>
      '[' ::
        (prettyList (level + 1) (item :: items) ++ indentation level ++ [']'])
  | .object [] => ['\x7b', '\x7d']
  | .object (member :: members) =>
      '\x7b' ::
        (prettyMembers (level + 1) (member :: members) ++ indentation level ++
          ['\x7d'])
  | .null => Token.null.chars
  | .bool value => (Token.bool value).chars
  | .number value => (Token.number value).chars
  | .string text => (Token.text text).chars

def prettyList (level : Nat) : List Value → List Char
  | [] => []
  | [item] => indentation level ++ prettyChars level item
  | item :: rest =>
      indentation level ++ prettyChars level item ++ ',' ::
        prettyList level rest

def prettyMembers (level : Nat) : List (String × Value) → List Char
  | [] => []
  | [(key, value)] =>
      indentation level ++ Text.quotedChars key.toList ++ ':' :: ' ' ::
        prettyChars level value
  | (key, value) :: rest =>
      indentation level ++ Text.quotedChars key.toList ++ ':' :: ' ' ::
        prettyChars level value ++ ',' :: prettyMembers level rest

end

/-- JSON text with every item and member on a line of its own. -/
def pretty (value : Value) : String :=
  String.ofList (value.prettyChars 0)

end Workflow.Value
