import Workflow.Text.Joined
import Workflow.Text.Span

/-!
# References

A reference names a value of the running workflow: a root, which is a name
bound so far, and the fields that lead into the value.  It is written between
double braces, with a dot in front of each field and no blanks.
`Reference.match?` recognises one at the start of a text.
-/

namespace Workflow

/-- A root name and the fields behind it. -/
structure Reference where
  root : String
  path : List String
  deriving DecidableEq, Repr

namespace Reference

/-- Characters a root may start with. -/
def isRootStart (c : Char) : Bool :=
  c.isLower || c == '_'

/-- Characters a root may go on with. -/
def isRootPart (c : Char) : Bool :=
  c.isLower || c.isDigit || c == '_'

def isFieldChar (c : Char) : Bool :=
  c.isAlphanum || c == '_'

/-- Characters that stand between the braces: those of roots and fields, and
dots. -/
def isInner (c : Char) : Bool :=
  isFieldChar c || c == '.'

def chars (reference : Reference) : List Char :=
  '\x7b' :: '\x7b' :: (reference.root.toList ++
    (reference.path.flatMap fun field => '.' :: field.toList) ++
      ['\x7d', '\x7d'])

/-- How a reference is written, as a string. -/
def render (reference : Reference) : String :=
  String.ofList reference.chars

def isRoot : List Char → Bool
  | [] => false
  | first :: rest => isRootStart first && rest.all isRootPart

/-- The reference whose inside is given: a root, then fields none of which is
empty. -/
def ofInner? (inner : List Char) : Option Reference :=
  match Text.pieces '.' inner with
  | [] => none
  | root :: fields =>
      if isRoot root && fields.all (fun field => !field.isEmpty) then
        some ⟨String.ofList root, fields.map String.ofList⟩
      else none

/-- The reference at the start of a text, and the number of characters it
takes. -/
def match? : List Char → Option (Reference × Nat)
  | '\x7b' :: '\x7b' :: rest =>
      let inner := rest.takeWhile isInner
      match rest.dropWhile isInner with
      | '\x7d' :: '\x7d' :: _ =>
          (ofInner? inner).map fun reference => (reference, inner.length + 4)
      | _ => none
  | _ => none

end Reference

end Workflow
