import Workflow.Condition.DenyList
import Workflow.Condition.Lexical
import Workflow.Reference.Template

/-!
# Accepted conditions

A condition is accepted when it is not blank, holds nothing of the deny-list,
compares or combines something, holds braces and dollar signs only as part of
references, and consists of allowed tokens.  The checks run in this order, so
that an operator never vouches for a forbidden token beside it.
-/

namespace Workflow.Condition

/-- Comparisons, as they are written. -/
def comparisons : List String :=
  [">=", "<=", "==", "!=", ">", "<"]

def operatorWords : List String :=
  ["and", "or", "not", "in", "is"]

/-- Whether a text compares or combines something. -/
def hasOperator (text : List Char) : Bool :=
  comparisons.any (fun comparison => Text.occursIn comparison.toList text) ||
    (Text.words text).any fun word =>
      operatorWords.contains (String.ofList word.letters)

/-- Characters that may only occur as part of references. -/
def isReserved (c : Char) : Bool :=
  c == '\x7b' || c == '\x7d' || c == '$'

/-- Reserved characters outside of references, with what follows them. -/
def strayReserved? (text : List Char) : Option (List Char) :=
  match (Template.substitute (fun _ => []) text).dropWhile (!isReserved ·) with
  | [] => none
  | found => some found

/-- The text whose tokens are checked: references count as numbers. -/
def withoutReferences (text : List Char) : List Char :=
  Template.substitute (fun _ => ['0']) text

def check (condition : String) : Except Problem Unit := do
  let text := condition.toList
  if (Text.trim text).isEmpty then throw .empty
  match denied? text with
  | some problem => throw problem
  | none => pure ()
  if !hasOperator text then throw .noOperator
  match strayReserved? text with
  | some found =>
      throw (.malformedReference
          (String.ofList (found.take Template.fragmentLength)))
  | none => pure ()
  checkTokens allowedNames (withoutReferences text)

end Workflow.Condition
