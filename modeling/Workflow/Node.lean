import Workflow.Value.Basic

/-!
# Workflow trees

A workflow is a tree of five kinds of nodes.  A tool call is the only leaf; the
others run their children one after the other, on a condition, side by side, or
one of several by rules.
-/

namespace Workflow

/-- How a parallel node waits for its branches. -/
inductive JoinPolicy where
  | waitForAll
  | firstToFinish
  deriving DecidableEq, Repr

namespace JoinPolicy

/-- How a policy is written in documents. -/
def text : JoinPolicy → String
  | .waitForAll => "wait-for-all"
  | .firstToFinish => "first-to-finish"

def ofText? (text : String) : Option JoinPolicy :=
  [waitForAll, firstToFinish].find? fun policy => policy.text == text

end JoinPolicy

/-- A call of one tool: its parameters in declared order, and the name its
result is bound to. -/
structure ToolCall where
  tool : String
  params : Members
  output : Option String
  deriving Repr

/-- Where an orchestrator goes when a condition holds. -/
structure Rule where
  condition : String
  target : String
  deriving DecidableEq, Repr

/-- A node of a workflow. The routes of an orchestrator are in increasing order
of their names. -/
inductive Node where
  | call (invocation : ToolCall)
  | sequence (steps : List Node)
  | branch (condition : String) (whenTrue : Node) (otherwise : Option Node)
  | fanout (branches : List Node) (join : JoinPolicy)
  | dispatch (routes : List (String × Node)) (rules : List Rule)
      (fallback : Option String)
  deriving Repr

namespace Node

mutual

/-- The tool calls of a tree in document order, routes in the order of their
names. -/
def calls : Node → List ToolCall
  | .call invocation => [invocation]
  | .sequence steps => callsList steps
  | .branch _ whenTrue none => calls whenTrue
  | .branch _ whenTrue (some otherwise) => calls whenTrue ++ calls otherwise
  | .fanout branches _ => callsList branches
  | .dispatch routes _ _ => callsRoutes routes

def callsList : List Node → List ToolCall
  | [] => []
  | node :: rest => calls node ++ callsList rest

def callsRoutes : List (String × Node) → List ToolCall
  | [] => []
  | (_, node) :: rest => calls node ++ callsRoutes rest

end

end Node

end Workflow
