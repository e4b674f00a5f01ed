import Workflow.Text.Span

/-!
# File names

A file name leads from directory to directory, with slashes between the steps.
Steps that lead nowhere are left out.
-/

namespace Workflow.FileName

def steps (name : String) : List String :=
  ((Text.pieces '/' name.toList).map String.ofList).filter fun step =>
    step != "" && step != "."

/-- What stands behind the last dot of a list of characters, and what stands
before it. -/
def splitLastDot? (text : List Char) : Option (List Char × List Char) :=
  match text.reverse.dropWhile (· != '.') with
  | [] => none
  | _ :: before =>
      some (before.reverse, (text.reverse.takeWhile (· != '.')).reverse)

/-- The extension of a file name: what stands behind the last dot of its last
step, if something stands before that dot. -/
def extension? (name : String) : Option String :=
  match (steps name).getLast? with
  | none | some ".." => none
  | some last =>
      match splitLastDot? last.toList with
      | some (_ :: _, extension) => some (String.ofList extension)
      | _ => none

end Workflow.FileName
