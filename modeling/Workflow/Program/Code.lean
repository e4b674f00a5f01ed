import Workflow.Text.Span

/-!
# Lines of code

Code is a list of items: lines, blank lines, and blocks, whose body stands one
level deeper than their header.  Only when code is written out does the level
become indentation, four blanks each.
-/

namespace Workflow.Program

inductive Code where
  | line (text : String)
  | blank
  | block (header : String) (body : List Code)
  deriving Repr

namespace Code

/-- The blanks in front of a line at a level. -/
def indentation (level : Nat) : String :=
  String.ofList (List.replicate (4 * level) ' ')

def renderLine (level : Nat) (text : String) : String :=
  indentation level ++ text ++ "\n"

mutual

/-- A piece of code at a level, written out. -/
def render (level : Nat) : Code → String
  | .line text => renderLine level text
  | .blank => "\n"
  | .block header body => renderLine level header ++ renderAll (level + 1) body

def renderAll (level : Nat) : List Code → String
  | [] => ""
  | code :: rest => render level code ++ renderAll level rest

end

/-- A line of given text, blank when there is none. -/
def ofLine (text : String) : Code :=
  if text = "" then .blank else .line text

def ofText (text : String) : List Code :=
  (Text.lines text.toList).map fun line => ofLine (String.ofList line)

end Code

end Workflow.Program
