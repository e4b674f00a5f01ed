import Workflow.Config.Basic
import Workflow.Name.Sorted
import Workflow.Toml.Reader

/-!
# Reading configurations

A configuration is a TOML document with a table of limits and a table of known
tools; either may be missing, and other keys do not matter.  The limits and the
entry of a tool may also be written as arrays of their fields, in order.
-/

namespace Workflow.Config

open Toml

/-- A cap: an integer that is not negative. -/
def cap? : Item → Option Nat
  | .integer value => if 0 ≤ value then some value.toNat else none
  | _ => none

def capOr? (default : Nat) : Option Item → Option Nat
  | some item => cap? item
  | none => some default

/-- The limits whose fields are found by name and position. -/
def limitsOf? (field? : String → Nat → Option Item) : Option Limits := do
  let defaults : Limits := {}
  let sequence ← capOr? defaults.maxSequenceLength
    (field? "max_sequence_len" 0)
  let branches ← capOr? defaults.maxFanoutBranches
    (field? "max_fanout_branches" 1)
  let rules ← capOr? defaults.maxDispatchRules (field? "max_dispatch_rules" 2)
  let calls ← capOr? defaults.maxToolCalls (field? "max_tool_calls" 3)
  let depth ← capOr? defaults.maxDepth (field? "max_depth" 4)
  return ⟨sequence, branches, rules, calls, depth⟩

/-- How the fields of a record are found; a date is a record of fields with
other names. -/
def fields? : Item → Option (String → Nat → Option Item)
  | .table _ entries | .inline entries =>
      some fun name _ => entries.lookup name
  | .array items => some fun _ position => items[position]?
  | .tables items =>
      some fun _ position =>
        items[position]?.map fun entries => .table .header entries
  | .datetime => some fun _ _ => none
  | _ => none

/-- The implementation of a tool, both of whose fields are texts. -/
def libraryEntry? (item : Item) : Option LibraryEntry := do
  let field? ← fields? item
  match field? "module" 0, field? "function" 1 with
  | some (.string modulePath), some (.string function) =>
      some ⟨modulePath, function⟩
  | _, _ => none

def libraryEntries? : Entries → Option (List (String × LibraryEntry))
  | [] => some []
  | (tool, item) :: rest => do
      let implementation ← libraryEntry? item
      return (tool, implementation) :: (← libraryEntries? rest)

def library? : Item → Option Library
  | .table _ entries | .inline entries =>
      (libraryEntries? entries).map Sorted.ofList
  | _ => none

/-- The configuration that a document describes. -/
def ofEntries? (entries : Entries) : Option Config := do
  let limits ←
    match entries.lookup "limits" with
    | some item => do limitsOf? (← fields? item)
    | none => some {}
  let library ←
    match entries.lookup "library" with
    | some item => library? item
    | none => some []
  return ⟨limits, library⟩

/-- Reads and checks a configuration. -/
def ofToml (text : String) : Except Problem Config :=
  match Toml.ofText? text with
  | none => .error (.unparsed "the text is not TOML")
  | some entries =>
      match ofEntries? entries with
      | none =>
          .error (.unparsed "the settings do not have the expected types")
      | some config => do
          config.check
          return config

end Workflow.Config
