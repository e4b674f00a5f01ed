import Workflow.Name.NameSet
import Workflow.Name.Secret
import Workflow.Node

/-!
# Workflow specifications

A specification is what a document means once its shape has been checked:
declarations of inputs and outputs around a tree.  Which inputs are secret
follows from their names and is not stored.
-/

namespace Workflow

/-- Types that inputs and outputs are declared with. -/
inductive ParamType where
  | string
  | integer
  | number
  | boolean
  | array
  | object
  deriving DecidableEq, Repr

namespace ParamType

/-- All types, in the order in which messages list them. -/
def all : List ParamType :=
  [.string, .integer, .number, .boolean, .array, .object]

/-- How a type is written in documents. -/
def text : ParamType → String
  | .string => "string"
  | .integer => "integer"
  | .number => "number"
  | .boolean => "boolean"
  | .array => "array"
  | .object => "object"

def ofText? (text : String) : Option ParamType :=
  all.find? fun type => type.text == text

end ParamType

structure Input where
  name : String
  type : ParamType
  description : Option String
  example? : Option Value
  deriving Repr

/-- Whether an input is a credential. -/
def Input.isSecret (input : Input) : Bool :=
  isSecretName input.name

structure Output where
  name : String
  type : ParamType
  description : Option String
  deriving DecidableEq, Repr

/-- A workflow with its declarations. Metadata is in increasing order of its
keys. -/
structure Spec where
  name : String
  description : String
  version : String
  inputs : List Input
  outputs : List Output
  workflow : Node
  metadata : Members
  deriving Repr

namespace Spec

/-- Names of the inputs that are credentials. -/
def secretInputs (spec : Spec) : NameSet :=
  NameSet.ofList ((spec.inputs.filter Input.isSecret).map Input.name)

/-- Names of the tools that are called. -/
def toolNames (spec : Spec) : NameSet :=
  NameSet.ofList (spec.workflow.calls.map ToolCall.tool)

end Spec

namespace ToolCall

/-- Names of the parameters that are credentials, in declared order. -/
def secretParams (call : ToolCall) : List String :=
  call.params.keys.filter isSecretName

end ToolCall

namespace Node

/-- The credential parameters that a tool is called with anywhere in a tree. -/
def credentials (node : Node) (tool : String) : NameSet :=
  NameSet.ofList
    ((node.calls.filter (·.tool == tool)).flatMap ToolCall.secretParams)

/-- The credential parameters of all calls of a tree. -/
def allCredentials (node : Node) : NameSet :=
  NameSet.ofList (node.calls.flatMap ToolCall.secretParams)

end Node

end Workflow
