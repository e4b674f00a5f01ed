/-!
# Entries sorted by name

Lists of named entries in increasing order of their names, each name once.
-/

namespace Workflow.Sorted

variable {α : Type}

/-- Puts an entry where it belongs; it takes the place of one with the same
name. -/
def insert (name : String) (content : α) :
    List (String × α) → List (String × α)
  | [] => [(name, content)]
  | (other, old) :: rest =>
      if name < other then (name, content) :: (other, old) :: rest
      else if name = other then (name, content) :: rest
      else (other, old) :: insert name content rest

/-- The entries of a list, sorted by name. -/
def ofList (entries : List (String × α)) : List (String × α) :=
  entries.foldl (fun sorted entry => insert entry.1 entry.2 sorted) []

end Workflow.Sorted
