import Workflow.Name.NameSet
import Workflow.Node
import Workflow.Program.Tool

/-!
# The tree of a program

The tree becomes the body of one function.  Branches that run side by side and
routes of an orchestrator become functions inside that body, numbered in the
order in which their nodes are met.
-/

namespace Workflow.Program

/-- Why no code can be written for a tree. An accepted tree has none of these
faults. -/
inductive TreeFault where
  | malformed (reference : Template.Malformed)
  | noRoute
  deriving DecidableEq, Repr

def TreeFault.message : TreeFault → String
  | .malformed reference => "accepted workflow carries " ++ reference.message
  | .noRoute => "orchestrator with neither rules nor default"

/-- The expression of a parameter. A credential that is given literally is not
written out: the program reads it from the environment. -/
def argumentExpression (name : String) (value : Value) :
    Except Template.Malformed String := do
  let references ← value.references
  if isSecretName name && references.isEmpty && !value.isNull then
    return environmentRead name
  else
    valueExpression value

/-- The parameters of a call with their expressions, in declared order. -/
def argumentExpressions :
    Members → Except Template.Malformed (List (String × String))
  | [] => .ok []
  | (name, value) :: rest => do
      let first ← argumentExpression name value
      let later ← argumentExpressions rest
      return (name, first) :: later

/-- The arguments of a call: parameters that Python cannot take by name go into
a dictionary at the end. -/
def arguments (expressions : List (String × String)) : List String :=
  let (reserved, plain) :=
    expressions.partition fun argument => isKeyword argument.1
  plain.map (fun argument => argument.1 ++ "=" ++ argument.2) ++
    (if reserved.isEmpty then []
    else ["**" ++
      dictionaryExpression
        (reserved.map fun argument => entry argument.1 argument.2)])

def callExpression (call : ToolCall) : Except Template.Malformed String := do
  let expressions ← argumentExpressions call.params
  return "tool_" ++ call.tool ++ "(" ++ Text.commaSeparated
    (arguments expressions) ++ ")"

/-- The line of a tool call, which binds its result if a name is given. -/
def callLine (call : ToolCall) : Except TreeFault Code :=
  match callExpression call with
  | .error malformed => .error (.malformed malformed)
  | .ok expression =>
      match call.output with
      | some target =>
          .ok (.line
              ("ctx.set(" ++ Text.quoted target ++ ", " ++ expression ++ ")"))
      | none => .ok (.line expression)

/-- The name of the function of a branch. -/
def unitName (number position : Nat) : String :=
  "_fanout" ++ toString number ++ "_unit" ++ toString position

/-- The name of the function of a route. -/
def routeName (number : Nat) (name : String) : String :=
  "_route" ++ toString number ++ "_" ++ name

/-- The names that some branch binds. -/
def boundNames (branches : List Node) : NameSet :=
  NameSet.ofList ((Node.callsList branches).filterMap ToolCall.output)

/-- The line that runs branches side by side. For a race it lists the names
that a branch that lost would have bound. -/
def joinLine (number : Nat) (branches : List Node) (join : JoinPolicy) :
    Code :=
  let units :=
    listExpression ((List.range branches.length).map (unitName number))
  match join with
  | .waitForAll => .line ("_run_all(ctx, " ++ units ++ ")")
  | .firstToFinish =>
      let bound := boundNames branches
      if bound.isEmpty then .line ("_run_first(ctx, " ++ units ++ ")")
      else .line ("_run_first(ctx, " ++ units ++ ", " ++
        listExpression (bound.names.map Text.quoted) ++ ")")

def routeLine (number : Nat) (target : String) : Code :=
  .line (routeName number target ++ "(ctx)")

/-- The rules of an orchestrator from one on, each with its keyword. -/
def ruleBlocks (number : Nat) (keyword : String) : List Rule → List Code
  | [] => []
  | rule :: rest =>
      .block (keyword ++ " " ++ conditionExpression rule.condition ++ ":")
        [routeLine number rule.target] :: ruleBlocks number "elif" rest

/-- The choice among the routes of an orchestrator. -/
def routeChoice (number : Nat) (rules : List Rule) (fallback : Option String) :
    Except TreeFault (List Code) :=
  match rules, fallback with
  | [], some target => .ok [routeLine number target]
  | [], none => .error .noRoute
  | rules, fallback =>
      let last :=
        match fallback with
        | some target => routeLine number target
        | none => .line "pass"
      .ok (ruleBlocks number "if" rules ++ [.block "else:" [last]])

/-- Code, and the last number that was given out. -/
structure Numbered where
  code : List Code
  last : Nat

mutual

/-- The code of a tree; `last` is the last number given out before it. -/
def treeCode (last : Nat) : Node → Except TreeFault Numbered
  | .call invocation => do
      let line ← callLine invocation
      return ⟨[line], last⟩
  | .sequence steps => stepCode last steps
  | .branch condition whenTrue none => do
      let first ← treeCode last whenTrue
      return ⟨[.block ("if " ++ conditionExpression condition ++ ":")
          first.code],
        first.last⟩
  | .branch condition whenTrue (some otherwise) => do
      let first ← treeCode last whenTrue
      let second ← treeCode first.last otherwise
      return ⟨[.block ("if " ++ conditionExpression condition ++ ":")
          first.code,
          .block "else:" second.code],
        second.last⟩
  | .fanout branches join => do
      let units ← unitCode (last + 1) (last + 1) 0 branches
      return ⟨units.code ++ [joinLine (last + 1) branches join], units.last⟩
  | .dispatch routes rules fallback => do
      let functions ← routeCode (last + 1) (last + 1) routes
      let choice ← routeChoice (last + 1) rules fallback
      return ⟨functions.code ++ choice, functions.last⟩

/-- The code of steps, one after the other. -/
def stepCode (last : Nat) : List Node → Except TreeFault Numbered
  | [] => .ok ⟨[], last⟩
  | node :: rest => do
      let first ← treeCode last node
      let later ← stepCode first.last rest
      return ⟨first.code ++ later.code, later.last⟩

/-- The functions of branches from a position on. -/
def unitCode (number last position : Nat) :
    List Node → Except TreeFault Numbered
  | [] => .ok ⟨[], last⟩
  | node :: rest => do
      let first ← treeCode last node
      let later ← unitCode number first.last (position + 1) rest
      return ⟨.block ("def " ++ unitName number position ++ "(ctx):")
          first.code :: later.code, later.last⟩

def routeCode (number last : Nat) :
    List (String × Node) → Except TreeFault Numbered
  | [] => .ok ⟨[], last⟩
  | (name, node) :: rest => do
      let first ← treeCode last node
      let later ← routeCode number first.last rest
      return ⟨.block ("def " ++ routeName number name ++ "(ctx):")
          first.code :: later.code, later.last⟩

end

def treeFunction (node : Node) : Except TreeFault Code := do
  let body ← treeCode 0 node
  return .block "def _workflow(ctx):" body.code

end Workflow.Program
