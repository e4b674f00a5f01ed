import Workflow.Analysis.Limits
import Workflow.Name.Identifier
import Workflow.Program.Library
import Workflow.Text.Span

/-!
# Configuration

A configuration sets the limits and lists the known tools.  Names of tools,
modules and functions are written into programs, so they are checked here, and
a limit of zero would reject everything.
-/

namespace Workflow

structure Config where
  limits : Limits := {}
  library : Library := []
  deriving DecidableEq, Repr

namespace Limits

/-- The caps with the names they have in configurations. -/
def caps (limits : Limits) : List (String × Nat) :=
  [("max_sequence_len", limits.maxSequenceLength),
    ("max_fanout_branches", limits.maxFanoutBranches),
    ("max_dispatch_rules", limits.maxDispatchRules),
    ("max_tool_calls", limits.maxToolCalls),
    ("max_depth", limits.maxDepth)]

end Limits

namespace Config

/-- Why a configuration cannot be used. -/
inductive Problem where
  | unparsed (details : String)
  | unreadable (path reason : String)
  | toolName (tool : String) (problem : Identifier.Problem)
  | modulePath (tool path : String)
  | functionName (tool name : String)
  | zeroLimit (name : String)
  deriving DecidableEq, Repr

def Problem.message : Problem → String
  | .unparsed details => "Failed to parse config: " ++ details
  | .unreadable path reason =>
      "Failed to read config file " ++ path ++ ": " ++ reason
  | .toolName tool problem =>
      "library tool '" ++ tool ++ "': " ++ problem.message
  | .modulePath tool path =>
      "library tool '" ++ tool ++ "': module '" ++ path ++
        "' is not a dotted module path"
  | .functionName tool name =>
      "library tool '" ++ tool ++ "': function '" ++ name ++
        "' is not a valid name"
  | .zeroLimit name => "limits." ++ name ++ " must be at least 1"

/-- Whether a text is a name: letters, digits and underscores, no digit in
front. -/
def isName : List Char → Bool
  | [] => false
  | first :: rest =>
      (first.isAlpha || first == '_') &&
      rest.all fun c => c.isAlphanum || c == '_'

/-- Whether a text is a path of names with dots between them. -/
def isModulePath (text : List Char) : Bool :=
  (Text.pieces '.' text).all isName

def checkEntry (tool : String) (implementation : LibraryEntry) :
    Except Problem Unit :=
  match Identifier.problem? tool with
  | some problem => .error (.toolName tool problem)
  | none =>
      if !isModulePath implementation.modulePath.toList then
        .error (.modulePath tool implementation.modulePath)
      else if !isName implementation.function.toList then
        .error (.functionName tool implementation.function)
      else .ok ()

def checkLibrary : Library → Except Problem Unit
  | [] => .ok ()
  | (tool, implementation) :: rest => do
      checkEntry tool implementation
      checkLibrary rest

def checkLimits (limits : Limits) : Except Problem Unit :=
  match limits.caps.find? fun cap => cap.2 == 0 with
  | some (name, _) => .error (.zeroLimit name)
  | none => .ok ()

/-- Checks a configuration: the known tools first, then the limits. -/
def check (config : Config) : Except Problem Unit := do
  checkLibrary config.library
  checkLimits config.limits

end Config

end Workflow
