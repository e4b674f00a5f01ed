import Workflow.Node
import Workflow.Report.Path

/-!
# Complexity limits

Five caps keep a tree within bounds: the length of a sequence, the number of
branches and of rules, the number of tool calls and the depth.  One walk, which
visits a node before its children, finds every excess.  It carries along how
many tool calls it came by and whether it has reported a depth: the depth is
reported only where it is first exceeded, and the number of calls at the end.
-/

namespace Workflow

structure Limits where
  maxSequenceLength : Nat := 50
  maxFanoutBranches : Nat := 16
  maxDispatchRules : Nat := 32
  maxToolCalls : Nat := 200
  maxDepth : Nat := 24
  deriving DecidableEq, Repr

namespace Limits

/-- Narrow caps, which small trees already exceed. -/
def testing : Limits :=
  ⟨4, 3, 3, 10, 4⟩

end Limits

/-- Which cap is exceeded, with the number found and the cap. -/
inductive Excess where
  | depth (cap : Nat)
  | steps (count cap : Nat)
  | branches (count cap : Nat)
  | rules (count cap : Nat)
  | toolCalls (count cap : Nat)
  deriving DecidableEq, Repr

namespace Excess

def message : Excess → String
  | .depth cap => s!"nesting depth exceeds {cap}"
  | .steps count cap => s!"sequential has {count} steps (max {cap})"
  | .branches count cap => s!"parallel has {count} branches (max {cap})"
  | .rules count cap => s!"orchestrator has {count} rules (max {cap})"
  | .toolCalls count cap => s!"workflow has {count} tool calls (max {cap})"

end Excess

structure Violation where
  path : Path
  excess : Excess
  deriving DecidableEq, Repr

/-- What a walk has noted on its way. -/
structure Checker where
  toolCalls : Nat := 0
  depthReported : Bool := false
  violations : List Violation := []
  deriving DecidableEq, Repr

namespace Checker

def report (checker : Checker) (path : Path) (excess : Excess) : Checker :=
  { checker with violations := checker.violations ++ [⟨path, excess⟩] }

/-- Reports a number that is above its cap. -/
def measure (checker : Checker) (path : Path) (count cap : Nat)
    (excess : Nat → Nat → Excess) : Checker :=
  if cap < count then checker.report path (excess count cap) else checker

/-- Reports a depth that is above its cap, unless one was reported before. -/
def measureDepth (checker : Checker) (path : Path) (depth cap : Nat) :
    Checker :=
  if cap < depth ∧ checker.depthReported = false then
    { checker.report path (.depth cap) with depthReported := true }
  else checker

def countCall (checker : Checker) : Checker :=
  { checker with toolCalls := checker.toolCalls + 1 }

end Checker

namespace Limits

mutual

/-- Walks through a tree whose root has the given depth. -/
def visit (limits : Limits) (path : Path) (depth : Nat) (node : Node)
    (checker : Checker) : Checker :=
  let checker := checker.measureDepth path depth limits.maxDepth
  match node with
  | .call _ => checker.countCall
  | .sequence steps =>
      visitList limits path "steps" 0 (depth + 1) steps
        (checker.measure (.field path "steps") steps.length
          limits.maxSequenceLength .steps)
  | .branch _ whenTrue none =>
      visit limits (.field path "if_true") (depth + 1) whenTrue checker
  | .branch _ whenTrue (some otherwise) =>
      visit limits (.field path "if_false") (depth + 1) otherwise
        (visit limits (.field path "if_true") (depth + 1) whenTrue checker)
  | .fanout branches _ =>
      visitList limits path "branches" 0 (depth + 1) branches
        (checker.measure (.field path "branches") branches.length
          limits.maxFanoutBranches .branches)
  | .dispatch routes rules _ =>
      visitRoutes limits (.field path "sub_workflows") (depth + 1) routes
        (checker.measure (.field path "rules") rules.length
          limits.maxDispatchRules .rules)

def visitList (limits : Limits) (path : Path) (key : String)
    (position depth : Nat) (nodes : List Node) (checker : Checker) : Checker :=
  match nodes with
  | [] => checker
  | node :: rest =>
      visitList limits path key (position + 1) depth rest
        (visit limits (path.item key position) depth node checker)

def visitRoutes (limits : Limits) (path : Path) (depth : Nat)
    (routes : List (String × Node)) (checker : Checker) : Checker :=
  match routes with
  | [] => checker
  | (name, node) :: rest =>
      visitRoutes limits path depth rest
        (visit limits (.field path name) depth node checker)

end

/-- All violations of the caps by a tree. -/
def violations (limits : Limits) (path : Path) (node : Node) :
    List Violation :=
  let checker := limits.visit path 1 node {}
  (checker.measure path checker.toolCalls limits.maxToolCalls
    .toolCalls).violations

end Limits

end Workflow
