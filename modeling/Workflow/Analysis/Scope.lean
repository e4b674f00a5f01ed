import Workflow.Name.NameSet
import Workflow.Reference.Template
import Workflow.Report.Path
import Workflow.Spec.Basic

/-!
# Scope analysis

The analysis follows the flow of a tree and keeps, at every point, the names
that are bound for sure, the names that are bound on some way there, and the
names whose binding hangs on a branch of a race that may have lost.  A
reference to a name that is not bound for sure is an error; a reference to one
that hangs on a race is worth a warning.
-/

namespace Workflow

/-- What is known about names at a point: those bound for sure, those bound on
some way, and those among the former that a lost race takes away. -/
structure Scope where
  guaranteed : NameSet
  possible : NameSet
  cancellable : NameSet
  deriving DecidableEq

namespace Scope

/-- The scope in which some names are bound. -/
def ofNames (names : NameSet) : Scope :=
  ⟨names, names, ∅⟩

def bind (scope : Scope) (name : String) : Scope :=
  ⟨scope.guaranteed.insert name, scope.possible.insert name,
    scope.cancellable.erase name⟩

/-- One of two arms has run: what both bind is bound for sure. -/
def joinArms (whenTrue otherwise : Scope) : Scope :=
  let guaranteed := whenTrue.guaranteed.inter otherwise.guaranteed
  { guaranteed := guaranteed
    possible := whenTrue.possible.union otherwise.possible
    cancellable :=
      (whenTrue.cancellable.union otherwise.cancellable).inter guaranteed }

def skippable (scope arm : Scope) : Scope :=
  { scope with possible := scope.possible.union arm.possible }

/-- All that a list of branches binds, on top of the scope they start from. -/
def unionAll (scope : Scope) (branches : List Scope) : Scope :=
  branches.foldl
    (fun joined branch =>
      { guaranteed := joined.guaranteed.union branch.guaranteed
        possible := joined.possible.union branch.possible
        cancellable := joined.cancellable.union branch.cancellable })
    scope

/-- The names that some branches bind and others do not. -/
def contested (scope joined : Scope) (branches : List Scope) : NameSet :=
  joined.guaranteed.filter fun name =>
    decide (name ∉ scope.guaranteed) &&
      !branches.all fun branch => decide (name ∈ branch.guaranteed)

/-- All branches have started from one scope. When only the first to finish
counts, what not all of them bind may be missing. -/
def joinFanout (scope : Scope) (branches : List Scope) (join : JoinPolicy) :
    Scope :=
  let joined := scope.unionAll branches
  match join with
  | .waitForAll => joined
  | .firstToFinish =>
      { joined with
        cancellable :=
          joined.cancellable.union (scope.contested joined branches) }

end Scope

/-- A reference whose root is not bound for sure. -/
structure ScopeError where
  path : Path
  reference : Reference
  available : NameSet
  partiallyBound : Bool
  deriving DecidableEq

/-- What is said about such a reference. -/
def ScopeError.message (error : ScopeError) : String :=
  "'" ++ error.reference.root ++ "' (in " ++ error.reference.render ++
    ") is not guaranteed to be available here" ++
    (if error.partiallyBound then
      "; it is only bound on some paths (a conditional arm, a conditional without else, " ++
        "or an orchestrator route)"
    else "") ++
    (if error.available.isEmpty then "; no names are available at this point"
    else "; available: " ++ Text.commaSeparated error.available.names)

/-- A name whose binding hangs on a race. -/
structure ScopeWarning where
  path : Path
  name : String
  deriving DecidableEq

def ScopeWarning.message (warning : ScopeWarning) : String :=
  "'" ++ warning.name ++ "' is bound inside a first-to-finish parallel; " ++
    "it is absent if that branch loses and is cancelled"

/-- What is found about one occurrence of a reference. -/
inductive ScopeFinding where
  | unbound (error : ScopeError)
  | contested (warning : ScopeWarning)

namespace Scope

/-- What is to be said about a reference at a point. -/
def check (scope : Scope) (path : Path) (reference : Reference) :
    List ScopeFinding :=
  if reference.root ∉ scope.guaranteed then
    [.unbound ⟨path, reference, scope.guaranteed,
      decide (reference.root ∈ scope.possible)⟩]
  else if reference.root ∈ scope.cancellable then
    [.contested ⟨path, reference.root⟩]
  else []

/-- What is to be said about the references of a condition. -/
def checkCondition (scope : Scope) (path : Path) (condition : String) :
    List ScopeFinding :=
  (Template.references condition).flatMap (scope.check path)

/-- What is to be said about the references of parameters. A value with a
malformed reference has none. -/
def checkParams (scope : Scope) (path : Path) (params : Members) :
    List ScopeFinding :=
  params.flatMap fun param =>
    match param.2.references with
    | .ok references => references.flatMap (scope.check (.field path param.1))
    | .error _ => []

/-- What is to be said about the conditions of rules, from a position on. -/
def checkRules (scope : Scope) (path : Path) (position : Nat) :
    List Rule → List ScopeFinding
  | [] => []
  | rule :: rest =>
      scope.checkCondition (.field (path.item "rules" position) "condition")
        rule.condition ++ scope.checkRules path (position + 1) rest

end Scope

/-- The scope behind a piece of a tree, and what was found in it. -/
structure Flow (α : Type) where
  outcome : α
  findings : List ScopeFinding

namespace Node

mutual

/-- The flow through a tree from a scope. -/
def flow (scope : Scope) (path : Path) : Node → Flow Scope
  | .call invocation =>
      ⟨match invocation.output with
        | some target => scope.bind target
        | none => scope,
        scope.checkParams (.field path "params") invocation.params⟩
  | .sequence steps => flowSteps scope path 0 steps
  | .branch condition whenTrue none =>
      let first := flow scope (.field path "if_true") whenTrue
      ⟨scope.skippable first.outcome,
        scope.checkCondition (.field path "condition") condition ++
          first.findings⟩
  | .branch condition whenTrue (some otherwise) =>
      let first := flow scope (.field path "if_true") whenTrue
      let second := flow scope (.field path "if_false") otherwise
      ⟨first.outcome.joinArms second.outcome,
        scope.checkCondition (.field path "condition") condition ++
          first.findings ++ second.findings⟩
  | .fanout branches join =>
      let all := flowBranches scope path 0 branches
      ⟨scope.joinFanout all.outcome join, all.findings⟩
  | .dispatch routes rules _ =>
      let all := flowRoutes scope (.field path "sub_workflows") routes
      ⟨all.outcome.foldl Scope.skippable scope,
        scope.checkRules path 0 rules ++ all.findings⟩

/-- The flow through steps, each from the scope behind the one before. -/
def flowSteps (scope : Scope) (path : Path) (position : Nat) :
    List Node → Flow Scope
  | [] => ⟨scope, []⟩
  | node :: rest =>
      let first := flow scope (path.item "steps" position) node
      let later := flowSteps first.outcome path (position + 1) rest
      ⟨later.outcome, first.findings ++ later.findings⟩

/-- The flow through branches, all from the same scope. -/
def flowBranches (scope : Scope) (path : Path) (position : Nat) :
    List Node → Flow (List Scope)
  | [] => ⟨[], []⟩
  | node :: rest =>
      let first := flow scope (path.item "branches" position) node
      let later := flowBranches scope path (position + 1) rest
      ⟨first.outcome :: later.outcome, first.findings ++ later.findings⟩

/-- The flow through routes, all from the same scope. -/
def flowRoutes (scope : Scope) (path : Path) :
    List (String × Node) → Flow (List Scope)
  | [] => ⟨[], []⟩
  | (name, node) :: rest =>
      let first := flow scope (.field path name) node
      let later := flowRoutes scope path rest
      ⟨first.outcome :: later.outcome, first.findings ++ later.findings⟩

end

end Node

/-- The result of the analysis of a tree. -/
structure ScopeReport where
  available : NameSet
  errors : List ScopeError
  warnings : List ScopeWarning

namespace ScopeReport

/-- Whether every reference is bound for sure. -/
def isSound (report : ScopeReport) : Bool :=
  report.errors.isEmpty

def errorsOf (findings : List ScopeFinding) : List ScopeError :=
  findings.filterMap fun finding =>
    match finding with
    | .unbound error => some error
    | .contested _ => none

/-- Whether two warnings say the same. -/
def sameWarning (left right : ScopeWarning) : Bool :=
  left.path.render == right.path.render && left.name == right.name

/-- The warnings among findings, each at its first occurrence. -/
def warningsOf (findings : List ScopeFinding) : List ScopeWarning :=
  findings.foldl
    (fun found finding =>
      match finding with
      | .unbound _ => found
      | .contested warning =>
          if found.any (sameWarning warning) then found
          else found ++ [warning])
    []

end ScopeReport

/-- The analysis of a tree in which some names are bound from the start. -/
def Node.analyze (node : Node) (incoming : NameSet) (path : Path) :
    ScopeReport :=
  let through := node.flow (Scope.ofNames incoming) path
  { available := through.outcome.guaranteed
    errors := ScopeReport.errorsOf through.findings
    warnings := ScopeReport.warningsOf through.findings }

/-- The analysis of a specification: its inputs are bound from the start. -/
def Spec.analyze (spec : Spec) : ScopeReport :=
  spec.workflow.analyze (NameSet.ofList (spec.inputs.map Input.name))
    (.field .document "workflow")

end Workflow
