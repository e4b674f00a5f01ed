/-!
# Known tools

Where tools are implemented.  A tool that is not listed gets a placeholder in
the program.
-/

namespace Workflow

/-- The implementation of a tool: a dotted module path, and a function of that
module. -/
structure LibraryEntry where
  modulePath : String
  function : String
  deriving DecidableEq, Repr

/-- The implementations of tools, in increasing order of the tools' names. -/
abbrev Library := List (String × LibraryEntry)

def Library.get? (library : Library) (tool : String) : Option LibraryEntry :=
  library.lookup tool

end Workflow
