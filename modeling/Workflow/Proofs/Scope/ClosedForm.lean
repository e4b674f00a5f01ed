import Mathlib.Data.List.Sort
import Workflow.Proofs.Scope.Occurrences

/-!
# The scope analysis in closed form

The analysis threads whole scopes through a tree and joins them where ways
meet.  What it reports can be said without any of that: the names behind a tree
are the incoming ones and those that the tree binds on every way, and an error
stands at every reference whose root is neither incoming nor bound on every way
by a step in front of it.  Such a root is bound on some way exactly when one of
those steps holds a call that binds it.
-/

namespace Workflow

/-- Sets with the same members are equal, because both are increasing. -/
theorem NameSet.eq_of_mem_iff {left right : NameSet}
    (same : ∀ name, name ∈ left ↔ name ∈ right) : left = right := by
  obtain ⟨leftNames, leftIncreasing⟩ := left
  obtain ⟨rightNames, rightIncreasing⟩ := right
  have irreflexive : Std.Irrefl fun left right : String => left < right :=
    ⟨String.lt_irrefl⟩
  have asymmetric : Std.Antisymm fun left right : String => left < right :=
    ⟨fun _ _ below above => absurd above (String.lt_asymm below)⟩
  have equal : leftNames = rightNames :=
    leftIncreasing.eq_of_mem_iff rightIncreasing same
  subst equal
  rfl

namespace Scope

variable {scope : Scope} {branches : List Scope} {name : String}

@[simp] theorem mem_possible_bind {target : String} :
    name ∈ (scope.bind target).possible ↔
      name = target ∨ name ∈ scope.possible :=
  NameSet.mem_insert

@[simp] theorem mem_possible_unionAll :
    name ∈ (scope.unionAll branches).possible ↔
      name ∈ scope.possible ∨ ∃ branch ∈ branches, name ∈ branch.possible := by
  unfold unionAll
  induction branches generalizing scope with
  | nil => simp
  | cons branch rest induction =>
      simp only [List.foldl_cons, induction, NameSet.mem_union, List.mem_cons,
        exists_eq_or_imp, or_assoc]

@[simp] theorem mem_possible_joinFanout {join : JoinPolicy} :
    name ∈ (scope.joinFanout branches join).possible ↔
      name ∈ scope.possible ∨ ∃ branch ∈ branches, name ∈ branch.possible := by
  rw [← mem_possible_unionAll]
  cases join with
  | waitForAll => exact Iff.rfl
  | firstToFinish => exact Iff.rfl

@[simp] theorem mem_possible_foldl_skippable :
    name ∈ (branches.foldl Scope.skippable scope).possible ↔
      name ∈ scope.possible ∨ ∃ branch ∈ branches, name ∈ branch.possible := by
  induction branches generalizing scope with
  | nil => simp
  | cons branch rest induction =>
      simp only [List.foldl_cons, induction, skippable, NameSet.mem_union,
        List.mem_cons, exists_eq_or_imp, or_assoc]

end Scope

/-- The names that calls bind. -/
def targetsOf (calls : List ToolCall) : NameSet :=
  NameSet.ofList (calls.filterMap ToolCall.output)

@[simp] theorem mem_targetsOf_nil {name : String} : name ∉ targetsOf [] := by
  simp [targetsOf]

@[simp] theorem mem_targetsOf_append
    {name : String} {first later : List ToolCall} :
    name ∈ targetsOf (first ++ later) ↔
      name ∈ targetsOf first ∨ name ∈ targetsOf later := by
  simp only [targetsOf, NameSet.mem_ofList, List.filterMap_append,
    List.mem_append]

namespace Node

/-- The names that some call of a tree binds. -/
def targets (node : Node) : NameSet :=
  targetsOf node.calls

variable {name : String}

mutual

/-- A name is bound on some way behind a tree when it was before, or a call of
the tree binds it. -/
theorem mem_possible_flow (scope : Scope) (path : Path) (node : Node) :
    name ∈ (node.flow scope path).outcome.possible ↔
      name ∈ scope.possible ∨ name ∈ targetsOf node.calls := by
  cases node with
  | call invocation =>
      obtain ⟨tool, params, output⟩ := invocation
      cases output with
      | none => simp [flow, calls, targetsOf]
      | some target => simp [flow, calls, targetsOf, or_comm]
  | sequence steps => exact mem_possible_flowSteps scope path 0 steps
  | branch condition whenTrue otherwise =>
      have first := mem_possible_flow scope (.field path "if_true") whenTrue
      cases otherwise with
      | none =>
          simp only [flow, calls, Scope.skippable, NameSet.mem_union, first]
          rw [← or_assoc, or_self]
      | some otherwise =>
          have second :=
            mem_possible_flow scope (.field path "if_false") otherwise
          simp only [flow, calls, Scope.joinArms, NameSet.mem_union, first,
            second, mem_targetsOf_append]
          rw [← or_or_distrib_left]
  | fanout branches join =>
      have each := mem_possible_flowBranches scope path 0 branches
      simpa only [flow, calls, Scope.mem_possible_joinFanout] using each
  | dispatch routes rules fallback =>
      have each :=
        mem_possible_flowRoutes scope (.field path "sub_workflows") routes
      simpa only [flow, calls, Scope.mem_possible_foldl_skippable] using each

theorem mem_possible_flowSteps (scope : Scope) (path : Path) (position : Nat)
    (steps : List Node) :
    name ∈ (flowSteps scope path position steps).outcome.possible ↔
      name ∈ scope.possible ∨ name ∈ targetsOf (callsList steps) := by
  cases steps with
  | nil => simp [flowSteps, callsList]
  | cons node rest =>
      have first := mem_possible_flow scope (path.item "steps" position) node
      have later := mem_possible_flowSteps
        (node.flow scope (path.item "steps" position)).outcome path
          (position + 1) rest
      simp only [flowSteps, callsList, later, first, mem_targetsOf_append,
        or_assoc]

/-- Every branch goes on from the same scope, so a name that is bound behind
one of them was bound in that scope or is bound by a call of that branch. -/
theorem mem_possible_flowBranches
    (scope : Scope) (path : Path) (position : Nat) (branches : List Node) :
    (name ∈ scope.possible ∨
        ∃ branch ∈ (flowBranches scope path position branches).outcome,
          name ∈ branch.possible) ↔
      name ∈ scope.possible ∨ name ∈ targetsOf (callsList branches) := by
  cases branches with
  | nil => simp [flowBranches, callsList]
  | cons node rest =>
      have first :=
        mem_possible_flow scope (path.item "branches" position) node
      have later := mem_possible_flowBranches scope path (position + 1) rest
      simp only [flowBranches, callsList, List.mem_cons, exists_eq_or_imp,
        first, mem_targetsOf_append]
      rw [or_left_comm, later, or_left_comm, or_assoc, or_self_left]

theorem mem_possible_flowRoutes (scope : Scope) (path : Path)
    (routes : List (String × Node)) :
    (name ∈ scope.possible ∨
        ∃ branch ∈ (flowRoutes scope path routes).outcome,
          name ∈ branch.possible) ↔
      name ∈ scope.possible ∨ name ∈ targetsOf (callsRoutes routes) := by
  cases routes with
  | nil => simp [flowRoutes, callsRoutes]
  | cons route rest =>
      obtain ⟨routeName, node⟩ := route
      have first := mem_possible_flow scope (.field path routeName) node
      have later := mem_possible_flowRoutes scope path rest
      simp only [flowRoutes, callsRoutes, List.mem_cons, exists_eq_or_imp,
        first, mem_targetsOf_append]
      rw [or_left_comm, later, or_left_comm, or_assoc, or_self_left]

end

theorem mem_mustAny {steps : List Node} :
    name ∈ mustAny steps ↔ ∃ step ∈ steps, name ∈ step.must := by
  induction steps with
  | nil => simp [mustAny]
  | cons step rest induction =>
      simp only [mustAny, NameSet.mem_union, induction, List.mem_cons,
        exists_eq_or_imp]

end Node

namespace Scope

theorem mem_possible_behind
    {scope : Scope} {steps : List Node} {name : String} :
    name ∈ (scope.behind steps).possible ↔
      name ∈ scope.possible ∨ ∃ step ∈ steps, name ∈ step.targets := by
  unfold behind
  induction steps generalizing scope with
  | nil => simp
  | cons step rest induction =>
      simp only [List.foldl_cons, induction, Node.mem_possible_flow,
        Node.targets, List.mem_cons, exists_eq_or_imp, or_assoc]

end Scope

namespace Occurrence

/-- The names that are bound for sure where a reference stands: the incoming
ones, and what the steps in front of it bind on every way. -/
def available (incoming : NameSet) (occurrence : Occurrence) : NameSet :=
  incoming.union (Node.mustAny occurrence.before)

/-- The error that a reference is, if its root is not among those names. -/
def error? (incoming : NameSet) (occurrence : Occurrence) :
    Option ScopeError :=
  if occurrence.reference.root ∈ occurrence.available incoming then none
  else
    some {
      path := occurrence.path
      reference := occurrence.reference
      available := occurrence.available incoming
      partiallyBound :=
        decide (∃ step ∈ occurrence.before,
            occurrence.reference.root ∈ step.targets) }

theorem guaranteed_behind (incoming : NameSet) (occurrence : Occurrence) :
    ((Scope.ofNames incoming).behind occurrence.before).guaranteed =
      occurrence.available incoming := by
  apply NameSet.eq_of_mem_iff
  intro name
  rw [Scope.mem_guaranteed_behind, available, NameSet.mem_union,
    Node.mem_mustAny]
  rfl

theorem errorsOf_findingsAt (incoming : NameSet) (occurrence : Occurrence) :
    ScopeReport.errorsOf ((Scope.ofNames incoming).findingsAt occurrence) =
      (occurrence.error? incoming).toList := by
  have bound := occurrence.guaranteed_behind incoming
  unfold Scope.findingsAt Scope.check error?
  rw [bound]
  by_cases member : occurrence.reference.root ∈ occurrence.available incoming
  · rw [if_neg (not_not_intro member), if_pos member]
    split
    · rfl
    · rfl
  · -- the root is not incoming, so only a step in front of it can have bound
    -- it on some way
    have notIncoming : occurrence.reference.root ∉ incoming := by
      intro isIncoming
      exact member (NameSet.mem_union.mpr (.inl isIncoming))
    have somewhere :
        occurrence.reference.root ∈
          ((Scope.ofNames incoming).behind occurrence.before).possible ↔
          ∃ step ∈ occurrence.before,
            occurrence.reference.root ∈ step.targets := by
      rw [Scope.mem_possible_behind]
      exact or_iff_right notIncoming
    rw [if_pos member, if_neg member, decide_eq_decide.mpr somewhere]
    rfl

end Occurrence

namespace Node

/-- Behind a tree the incoming names are bound for sure and those that the tree
binds on every way.  The errors are, in the order of the analysis, those of the
references whose root is neither incoming nor bound on every way by a step in
front of them. -/
theorem analyze_eq_closedForm
    (node : Node) (incoming : NameSet) (path : Path) :
    (node.analyze incoming path).available = incoming.union node.must ∧
      (node.analyze incoming path).errors =
        (node.occurrences path []).filterMap (Occurrence.error? incoming) := by
  constructor
  · apply NameSet.eq_of_mem_iff
    intro name
    rw [NameSet.mem_union]
    exact mem_guaranteed_flow (Scope.ofNames incoming) path node
  · have found := node.findings_flow (Scope.ofNames incoming) path []
    rw [Scope.behind, List.foldl_nil] at found
    simp only [analyze, found, ScopeReport.errorsOf]
    rw [List.filterMap_flatMap, List.filterMap_eq_flatMap_toList]
    congr 1
    funext occurrence
    exact occurrence.errorsOf_findingsAt incoming

end Node

end Workflow
