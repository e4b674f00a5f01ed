import Workflow.Document.NodeReader

/-!
# Reading specifications

A whole document becomes a specification when its inputs and its tree have a
usable shape; what is wrong beyond that is recorded and does not stop the
reading.
-/

namespace Workflow.Document

/-- Whether a version consists of three runs of decimal digits with dots
between them. -/
def isVersion (version : String) : Bool :=
  let parts := Text.pieces '.' version.toList
  parts.length == 3 &&
  parts.all fun part => !part.isEmpty && part.all Text.isDecimalDigit

/-- The declared type of an input or an output. -/
def readType (members : Members) (path : Path) :
    Checked (Option ParamType) := do
  match ← requiredText members "type" path with
  | none => return none
  | some text =>
      match ParamType.ofText? text with
      | some type => return some type
      | none =>
          (Finding.unknownType text).record (.field path "type")
          return none

/-- A sample value, unless it is absent or null. -/
def sample? (members : Members) : Option Value :=
  match members.get? "example" with
  | some .null => none
  | other => other

/-- One input. An unknown type is recorded and counts as a string, so that the
name is kept. -/
def readInput (earlier : List String) (value : Value) (path : Path) :
    Checked (Option Input) := do
  match ← members? value path "an input" with
  | none => return none
  | some members =>
      if (members.get? "is_secret").isSome then
        Finding.secretFlag.record (.field path "is_secret")
      recordUnknownKeys ["name", "type", "description", "example", "is_secret"]
        path members.keys
      match ← requiredText members "name" path with
      | none => return none
      | some name =>
          recordName name (.field path "name") "input name"
          recordDuplicate name earlier (.field path "name") "input name"
          let type? ← readType members path
          let description? ← optionalText members "description" path
          let input : Input :=
            ⟨name, type?.getD .string, description?.join, sample? members⟩
          if input.isSecret && input.example?.isSome then
            (Finding.secretExample name).record (.field path "example")
          return some input

/-- Inputs from a position on; all are read, even if one is unusable. -/
def readInputsFrom (position : Nat) (earlier : List String) :
    List Value → Checked (Option (List Input))
  | [] => pure (some [])
  | item :: rest => do
      let input? ← readInput earlier item
        (Path.document.item "inputs" position)
      let names := input?.toList.map Input.name
      let inputs? ← readInputsFrom (position + 1) (names ++ earlier) rest
      return do
        let input ← input?
        let inputs ← inputs?
        return input :: inputs

def readInputs (members : Members) : Checked (Option (List Input)) :=
  match members.get? "inputs" with
  | some (.array items) => readInputsFrom 0 [] items
  | some other => do
      (Finding.notAnArray "inputs" other).record (.field .document "inputs")
      return none
  | none => do
      (Finding.missingKey "inputs").record .document
      return none

/-- One output with its name, as far as they are usable. -/
def readOutput (earlier : List String) (value : Value) (path : Path) :
    Checked (Option String × Option Output) := do
  match ← members? value path "an output" with
  | none => return (none, none)
  | some members =>
      recordUnknownKeys ["name", "type", "description"] path members.keys
      match ← requiredText members "name" path with
      | none => return (none, none)
      | some name =>
          recordName name (.field path "name") "output name"
          recordDuplicate name earlier (.field path "name") "output name"
          match ← readType members path with
          | none => return (some name, none)
          | some type =>
              let description? ← optionalText members "description" path
              return (some name, some ⟨name, type, description?.join⟩)

/-- Outputs from a position on, without those that are unusable. -/
def readOutputsFrom (position : Nat) (earlier : List String) :
    List Value → Checked (List Output)
  | [] => pure []
  | item :: rest => do
      let (name?, output?) ← readOutput earlier item
        (Path.document.item "outputs" position)
      let outputs ← readOutputsFrom (position + 1) (name?.toList ++ earlier)
        rest
      return output?.toList ++ outputs

def readOutputs (members : Members) : Checked (List Output) :=
  match members.get? "outputs" with
  | none => pure []
  | some .null => pure []
  | some (.array items) => readOutputsFrom 0 [] items
  | some other => do
      (Finding.notAnArray "outputs" other).record (.field .document "outputs")
      return []

/-- The metadata of a document, sorted by key. -/
def readMetadata (members : Members) : Checked Members :=
  match members.get? "metadata" with
  | none => pure []
  | some .null => pure []
  | some (.object entries) => pure (Sorted.ofList entries)
  | some other => do
      (Finding.notAnObjectAt "metadata" other).record
        (.field .document "metadata")
      return []

def readName (members : Members) : Checked String := do
  match ← requiredText members "name" .document with
  | none => return ""
  | some name =>
      recordName name (.field .document "name") "workflow name"
      return name

def readVersion (members : Members) : Checked String := do
  match ← requiredText members "version" .document with
  | none => return ""
  | some version =>
      if !isVersion version then
        (Finding.invalidVersion version).record (.field .document "version")
      return version

def readSpec (document : Value) : Checked (Option Spec) := do
  match ← members? document .document "the workflow document" with
  | none => return none
  | some members =>
      recordUnknownKeys
        ["name", "description", "version", "inputs", "outputs", "workflow",
          "metadata"]
        .document members.keys
      let name ← readName members
      let description? ← optionalText members "description" .document
      let version ← readVersion members
      let inputs? ← readInputs members
      let outputs ← readOutputs members
      let metadata ← readMetadata members
      let workflow? ← readChild members "workflow" .document
      return do
        let inputs ← inputs?
        let workflow ← workflow?
        return ⟨name, description?.join.getD "", version, inputs, outputs,
          workflow, metadata⟩

end Workflow.Document
