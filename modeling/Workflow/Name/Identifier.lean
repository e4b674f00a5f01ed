/-!
# Identifiers

Workflows, inputs, outputs, tools, parameters, binding targets and
sub-workflows are all named by identifiers: a lower-case letter or an
underscore, then lower-case letters, digits and underscores, sixty-four
characters at most.  Names are written into programs as they are, so nothing
outside this grammar gets there.
-/

namespace Workflow

namespace Identifier

/-- Greatest number of characters of an identifier. -/
def maxLength : Nat := 64

/-- Characters an identifier may start with. -/
def isStart (c : Char) : Bool :=
  c.isLower || c == '_'

/-- Characters an identifier may go on with. -/
def isPart (c : Char) : Bool :=
  c.isLower || c.isDigit || c == '_'

inductive Problem where
  | empty
  | tooLong (length : Nat)
  | invalidStart (character : Char)
  | invalidPart (character : Char) (position : Nat)
  deriving DecidableEq, Repr

def Problem.message : Problem → String
  | .empty => "identifier is empty"
  | .tooLong length =>
      s!"identifier is {length} characters long (max {maxLength})"
  | .invalidStart character =>
      s!"identifier must start with a lowercase letter or '_', found '{character}'"
  | .invalidPart character position =>
      s!"invalid character '{character}' at position {position} " ++
        "(use lowercase letters, digits, '_')"

/-- The first character that an identifier may not go on with, and its
position. -/
def invalidPart? (position : Nat) : List Char → Option Problem
  | [] => none
  | c :: rest =>
      if isPart c then invalidPart? (position + 1) rest
      else some (.invalidPart c position)

/-- The first problem of a text as an identifier: length comes before
characters. -/
def problem? (name : String) : Option Problem :=
  match name.toList with
  | [] => some .empty
  | first :: rest =>
      if maxLength < rest.length + 1 then some (.tooLong (rest.length + 1))
      else if isStart first then invalidPart? 1 rest
      else some (.invalidStart first)

end Identifier

def isIdentifier (name : String) : Bool :=
  (Identifier.problem? name).isNone

end Workflow
