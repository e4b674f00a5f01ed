import Workflow.Document.Finding

/-!
# Fields of a document

Reading one field of an object, with everything that can be wrong about it
recorded.
-/

namespace Workflow.Document

/-- The members of an object; anything else is recorded. -/
def members? (value : Value) (path : Path) (what : String) :
    Checked (Option Members) :=
  match value with
  | .object members => pure (some members)
  | other => do
      (Finding.notAnObject what other).record path
      return none

/-- Records the keys that are not in a list, in document order. -/
def recordUnknownKeys (known : List String) (path : Path) :
    List String → Checked Unit
  | [] => pure ()
  | key :: rest => do
      if !known.contains key then
        (Finding.unknownKey key).record (.field path key)
      recordUnknownKeys known path rest

def requiredText (members : Members) (key : String) (path : Path) :
    Checked (Option String) :=
  match members.get? key with
  | some (.string text) => pure (some text)
  | some other => do
      (Finding.notAString key other).record (.field path key)
      return none
  | none => do
      (Finding.missingKey key).record path
      return none

/-- A text that may be absent or null; nothing at all when there is something
else. -/
def optionalText (members : Members) (key : String) (path : Path) :
    Checked (Option (Option String)) :=
  match members.get? key with
  | none => pure (some none)
  | some .null => pure (some none)
  | some (.string text) => pure (some (some text))
  | some other => do
      (Finding.notAString key other).record (.field path key)
      return none

/-- Records a name that is no identifier. -/
def recordName (name : String) (path : Path) (what : String) : Checked Unit :=
  match Identifier.problem? name with
  | some problem => (Finding.invalidName what name problem).record path
  | none => pure ()

/-- Records a name that is in a list of earlier ones. -/
def recordDuplicate
    (name : String) (earlier : List String) (path : Path) (what : String) :
    Checked Unit :=
  if earlier.contains name then (Finding.duplicateName what name).record path
  else pure ()

end Workflow.Document
