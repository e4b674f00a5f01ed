import Workflow.Digest.Xxh3
import Workflow.Spec.Basic
import Workflow.Text.Quoted
import Workflow.Value.Writer

/-!
# Canonical documents

Every specification has one document that stands for it: fields in a fixed
order, absent ones left out, routes and metadata sorted.  Its compact text is
what the fingerprint is taken of.
-/

namespace Workflow

/-- A member that is there only if its value is. -/
def optionalMember (key : String) (value : Option Value) : Members :=
  match value with
  | some present => [(key, present)]
  | none => []

def Input.toValue (input : Input) : Value :=
  .object ([("name", .string input.name), ("type", .string input.type.text)] ++
    optionalMember "description" (input.description.map .string) ++
    optionalMember "example" input.example?)

def Output.toValue (output : Output) : Value :=
  .object
    ([("name", .string output.name), ("type", .string output.type.text)] ++
      optionalMember "description" (output.description.map .string))

def Rule.toValue (rule : Rule) : Value :=
  .object
    [("condition", .string rule.condition), ("target", .string rule.target)]

def ToolCall.toValue (call : ToolCall) : Value :=
  .object ([("type", .string "tool_call"), ("tool", .string call.tool)] ++
    optionalMember "params"
      (if call.params.isEmpty then none else some (.object call.params)) ++
    optionalMember "output" (call.output.map .string))

namespace Node

mutual

def toValue : Node → Value
  | .call invocation => invocation.toValue
  | .sequence steps =>
      .object
        [("type", .string "sequential"), ("steps", .array (toValueList steps))]
  | .branch condition whenTrue none =>
      .object [("type", .string "conditional"),
        ("condition", .string condition), ("if_true", toValue whenTrue)]
  | .branch condition whenTrue (some otherwise) =>
      .object [("type", .string "conditional"),
        ("condition", .string condition), ("if_true", toValue whenTrue),
        ("if_false", toValue otherwise)]
  | .fanout branches join =>
      .object [("type", .string "parallel"),
        ("branches", .array (toValueList branches)),
        ("join", .string join.text)]
  | .dispatch routes rules fallback =>
      .object ([("type", .string "orchestrator"),
          ("sub_workflows", .object (toValueRoutes routes)),
          ("rules", .array (rules.map Rule.toValue))] ++
          optionalMember "default" (fallback.map .string))

def toValueList : List Node → List Value
  | [] => []
  | node :: rest => toValue node :: toValueList rest

def toValueRoutes : List (String × Node) → Members
  | [] => []
  | (name, node) :: rest => (name, toValue node) :: toValueRoutes rest

end

end Node

namespace Spec

/-- The document that stands for a specification. -/
def toValue (spec : Spec) : Value :=
  .object [("name", .string spec.name),
    ("description", .string spec.description),
    ("version", .string spec.version),
    ("inputs", .array (spec.inputs.map Input.toValue)),
    ("outputs", .array (spec.outputs.map Output.toValue)),
    ("workflow", spec.workflow.toValue), ("metadata", .object spec.metadata)]

/-- The canonical text of a specification. -/
def canonical (spec : Spec) : String :=
  spec.toValue.pretty

/-- Sixteen hexadecimal digits of a word. -/
def wordText (word : UInt64) : String :=
  String.ofList ((List.range 16).reverse.map fun position =>
    Text.hexDigit (word.toNat / Nat.pow 16 position % 16))

/-- The fingerprint of a specification: the digest of its compact canonical
text. -/
def fingerprint (spec : Spec) : String :=
  wordText (Digest.xxh3 spec.toValue.compact.toUTF8.data)

end Spec

end Workflow
