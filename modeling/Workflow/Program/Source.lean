import Workflow.Program.SelfCheck
import Workflow.Program.Support
import Workflow.Program.Tree
import Workflow.Spec.Canonical

/-!
# Program text

A program consists of a header of comments, imports, constants, support code,
tool functions, the function of the tree, the entry point, and an example of
use.  Everything in it is either in declared order or sorted, so equal
specifications give equal programs.
-/

namespace Workflow.Program

def generator : String := "toolflow 0.1.0"

def header (spec : Spec) : List Code :=
  let secrets := spec.secretInputs.names.map environmentVariable
  [.line ("# Generated by " ++ generator ++ ". Do not edit."),
    .line ("# workflow: " ++ spec.name ++ " " ++ spec.version),
    .line ("# spec-hash: " ++ spec.fingerprint)] ++
    (if secrets.isEmpty then []
    else [.line ("# secrets are read from the environment: " ++
        Text.commaSeparated secrets)]) ++
    [.blank]

def tupleExpression : List String → String
  | [] => "()"
  | [item] => "(" ++ item ++ ",)"
  | items => "(" ++ Text.commaSeparated items ++ ")"

def constants (spec : Spec) : List Code :=
  [.line ("WORKFLOW = " ++ dictionaryExpression
      [entry "name" (Text.quoted spec.name),
        entry "version" (Text.quoted spec.version),
        entry "description" (Text.quoted spec.description)]),
    .line ("INPUTS = " ++
        tupleExpression (spec.inputs.map fun input => Text.quoted input.name)),
    .line ("OUTPUTS = " ++
        tupleExpression
          (spec.outputs.map fun output => Text.quoted output.name))]

/-- Reads a secret input from the environment when it was not given. -/
def secretFallback (input : Input) : Code :=
  .block ("if inputs.get(" ++ Text.quoted input.name ++ ") is None:")
    [.line ("inputs[" ++ Text.quoted input.name ++ "] = " ++
        environmentRead input.name)]

def entryPoint (spec : Spec) : Code :=
  .block "def run_workflow(**inputs):"
    ([.line (Text.quoted
        ("Run the '" ++ spec.name ++
          "' workflow and return the final context.")),
      .line "original = dict(inputs)",
      .line "inputs = dict(inputs)"] ++
      (spec.inputs.filter Input.isSecret).map secretFallback ++
      [.block "for name in INPUTS:"
        [.block "if inputs.get(name) is None:"
          [.line "raise MissingInputError(name)"]],
      .line "ctx = _Context(inputs)",
      .block "try:" [.line "_workflow(ctx)"],
      .block "except Exception as exc:"
        [.line "raise WorkflowError(exc, ctx.snapshot(), original) from exc"],
      .line "return ctx.snapshot()"])

/-- The value that stands for an input without an example. -/
def standIn : ParamType → String
  | .string => Text.quoted ""
  | .integer => "0"
  | .number => "0.0"
  | .boolean => "False"
  | .array => listExpression []
  | .object => dictionaryExpression []

/-- The value of an input in the example of use. -/
def exampleExpression (input : Input) : String :=
  if input.isSecret then environmentRead input.name
  else
    match input.example? with
    | some value => literal value
    | none => standIn input.type

/-- The inputs of the example of use. -/
def exampleInputs (inputs : List Input) : List Code :=
  if inputs.isEmpty then
    [.line ("example_inputs = " ++ dictionaryExpression [])]
  else
    .line "example_inputs = \x7b" ::
      (inputs.map fun input =>
        .line ("    " ++ entry input.name (exampleExpression input) ++ ",")) ++
      [.line "\x7d"]

/-- The line that runs the program on the inputs of the example. -/
def exampleRun : String :=
  "print(json.dumps(run_workflow(**example_inputs), indent=2, default=str))"

def usage (spec : Spec) : Code :=
  .block "if __name__ == \"__main__\":"
    ([.line "import json", .blank] ++ exampleInputs spec.inputs ++
      [.line exampleRun])

def gap : List Code :=
  [.blank, .blank]

def code (library : Library) (spec : Spec) : Except TreeFault (List Code) := do
  let tools := spec.toolNames
  let tree ← treeFunction spec.workflow
  return header spec ++ imports.map Code.ofLine ++ [.blank] ++ constants
    spec ++ gap ++
    support.map Code.ofLine ++ gap ++
    (if tools.isEmpty then []
    else toolFunctions library spec.workflow.credentials tools ++ gap) ++
    [tree] ++ gap ++ [entryPoint spec] ++ gap ++ [usage spec]

inductive Fault where
  | tree (cause : TreeFault)
  | text (cause : Defect)
  deriving DecidableEq, Repr

def Fault.message : Fault → String
  | .tree cause => cause.message
  | .text cause => cause.message

/-- The text of the program of a specification, self-checked. -/
def source (library : Library) (spec : Spec) : Except Fault String :=
  match code library spec with
  | .error fault => .error (.tree fault)
  | .ok lines =>
      let text := Code.renderAll 0 lines
      match selfCheck text spec.toolNames with
      | .error defect => .error (.text defect)
      | .ok _ => .ok text

end Workflow.Program
