/-!
# Joined texts

Lists of texts with a separator between neighbours, as messages and programs
write them.
-/

namespace Workflow.Text

/-- The parts in order, with the separator between neighbours. -/
def joined (separator : String) : List String → String
  | [] => ""
  | [part] => part
  | part :: rest => part ++ separator ++ joined separator rest

/-- The parts in order, with a comma and a blank between neighbours. -/
def commaSeparated (parts : List String) : String :=
  joined ", " parts

end Workflow.Text
