import Workflow.Reference.Basic
import Workflow.Value.Basic

/-!
# Templates

A text in which references stand is first cut into atoms: single characters and
whole references, the leftmost reference first.  Everything else is read off
the atoms, so that all who look for references in a text find the same ones.  A
text is a template when double braces occur in it only as part of references.
-/

namespace Workflow

/-- A character or a reference of a text. -/
inductive Atom where
  | char (c : Char)
  | reference (target : Reference)
  deriving DecidableEq, Repr

namespace Atom

def chars : Atom → List Char
  | .char c => [c]
  | .reference target => target.chars

def reference? : Atom → Option Reference
  | .char _ => none
  | .reference target => some target

end Atom

namespace Template

/-- The atoms of a text whose first `skip` characters belong to an atom already
found. -/
def atomsFrom : Nat → List Char → List Atom
  | _, [] => []
  | skip + 1, _ :: rest => atomsFrom skip rest
  | 0, c :: rest =>
      match Reference.match? (c :: rest) with
      | some (target, length) =>
          .reference target :: atomsFrom (length - 1) rest
      | none => .char c :: atomsFrom 0 rest

/-- The characters and references of a text, in order. -/
def atoms (text : List Char) : List Atom :=
  atomsFrom 0 text

/-- The references of a text, in order. -/
def references (text : String) : List Reference :=
  (atoms text.toList).filterMap Atom.reference?

/-- The text with every reference replaced. -/
def substitute (replacement : Reference → List Char) (text : List Char) :
    List Char :=
  (atoms text).flatMap fun atom =>
    match atom with
    | .char c => [c]
    | .reference target => replacement target

/-- The reference that a text is, from its first character to its last. -/
def exactly? (text : String) : Option Reference :=
  match atoms text.toList with
  | [.reference target] => some target
  | _ => none

/-- A piece of a template: literal text, or a reference. -/
inductive Segment where
  | literal (text : String)
  | reference (target : Reference)
  deriving DecidableEq, Repr

namespace Segment

def reference? : Segment → Option Reference
  | .literal _ => none
  | .reference target => some target

def render : Segment → String
  | .literal text => text
  | .reference target => target.render

end Segment

/-- Closes the literal collected so far (in reverse), if there is one. -/
def closeLiteral (reversed : List Char) : List Segment :=
  if reversed.isEmpty then [] else [.literal (String.ofList reversed.reverse)]

/-- Joins neighbouring characters into literals, the first of which is
extended. -/
def segmentsFrom (reversed : List Char) : List Atom → List Segment
  | [] => closeLiteral reversed
  | .char c :: rest => segmentsFrom (c :: reversed) rest
  | .reference target :: rest =>
      closeLiteral reversed ++ .reference target :: segmentsFrom [] rest

/-- Double braces that do not belong to a reference, with what follows them in
the literal. -/
structure Malformed where
  fragment : String
  deriving DecidableEq, Repr

def Malformed.message (malformed : Malformed) : String :=
  "malformed reference near '" ++ malformed.fragment ++
    "' (expected \x7b\x7bname\x7d\x7d or \x7b\x7bname.field\x7d\x7d)"

/-- A message shows this many characters of the text in question. -/
def fragmentLength : Nat := 24

/-- The double opening brace in a text, with what follows it. -/
def openBraces? : List Char → Option (List Char)
  | [] => none
  | c :: rest =>
      if ['\x7b', '\x7b'].isPrefixOf (c :: rest) then some (c :: rest)
      else openBraces? rest

/-- What is malformed about a segment. -/
def Segment.malformed? : Segment → Option Malformed
  | .literal text =>
      (openBraces? text.toList).map fun found =>
        ⟨String.ofList (found.take fragmentLength)⟩
  | .reference _ => none

/-- The segments of a template; an error when the text is none. -/
def segments (text : String) : Except Malformed (List Segment) :=
  let pieces := segmentsFrom [] (atoms text.toList)
  match pieces.findSome? Segment.malformed? with
  | some malformed => .error malformed
  | none => .ok pieces

def templateReferences (text : String) : Except Malformed (List Reference) :=
  (segments text).map (·.filterMap Segment.reference?)

end Template

namespace Value

mutual

/-- The references of all templates in a value, in document order; an error
when one of its strings is no template. -/
def references : Value → Except Template.Malformed (List Reference)
  | .string text => Template.templateReferences text
  | .array items => referencesList items
  | .object members => referencesMembers members
  | _ => .ok []

def referencesList : List Value → Except Template.Malformed (List Reference)
  | [] => .ok []
  | item :: rest => do
      let first ← references item
      let later ← referencesList rest
      return first ++ later

def referencesMembers :
    List (String × Value) → Except Template.Malformed (List Reference)
  | [] => .ok []
  | (_, value) :: rest => do
      let first ← references value
      let later ← referencesMembers rest
      return first ++ later

end

end Value

end Workflow
