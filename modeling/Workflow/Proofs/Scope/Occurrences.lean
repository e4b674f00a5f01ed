import Workflow.Proofs.Scope.Basic

/-!
# Occurrences of references

What the analysis finds is one function of the places where references stand,
each taken with the steps in front of it in the sequences around it.  A name is
bound for sure behind a node when it was before or when the node binds it on
every way; so a tree reads no unbound name exactly when the root of every
occurrence is bound from the start or by one of those steps.
-/

namespace Workflow

/-- A reference at a place of a tree, and the steps that lie before the place
in the sequences around it. -/
structure Occurrence where
  path : Path
  reference : Reference
  before : List Node

namespace Occurrence

def ofCondition (path : Path) (before : List Node) (condition : String) :
    List Occurrence :=
  (Template.references condition).map fun reference =>
    ⟨path, reference, before⟩

def ofParams (path : Path) (before : List Node) (params : Members) :
    List Occurrence :=
  params.flatMap fun param =>
    match param.2.references with
    | .ok references =>
        references.map fun reference =>
          ⟨.field path param.1, reference, before⟩
    | .error _ => []

def ofRules (path : Path) (before : List Node) (position : Nat) :
    List Rule → List Occurrence
  | [] => []
  | rule :: rest =>
      ofCondition (.field (path.item "rules" position) "condition") before
        rule.condition ++ ofRules path before (position + 1) rest

end Occurrence

namespace Node

mutual

/-- The references of a tree behind some steps, in the order of the
analysis. -/
def occurrences (path : Path) (before : List Node) : Node → List Occurrence
  | .call invocation =>
      Occurrence.ofParams (.field path "params") before invocation.params
  | .sequence steps => occurrencesSteps path 0 before steps
  | .branch condition whenTrue none =>
      Occurrence.ofCondition (.field path "condition") before condition ++
        occurrences (.field path "if_true") before whenTrue
  | .branch condition whenTrue (some otherwise) =>
      Occurrence.ofCondition (.field path "condition") before condition ++
        occurrences (.field path "if_true") before whenTrue ++
        occurrences (.field path "if_false") before otherwise
  | .fanout branches _ => occurrencesBranches path 0 before branches
  | .dispatch routes rules _ =>
      Occurrence.ofRules path before 0 rules ++
        occurrencesRoutes (.field path "sub_workflows") before routes
termination_by structural node => node

def occurrencesSteps (path : Path) (position : Nat) (before : List Node) :
    List Node → List Occurrence
  | [] => []
  | node :: rest =>
      occurrences (path.item "steps" position) before node ++
        occurrencesSteps path (position + 1) (before ++ [node]) rest
termination_by structural steps => steps

def occurrencesBranches (path : Path) (position : Nat) (before : List Node) :
    List Node → List Occurrence
  | [] => []
  | node :: rest =>
      occurrences (path.item "branches" position) before node ++
        occurrencesBranches path (position + 1) before rest
termination_by structural branches => branches

def occurrencesRoutes (path : Path) (before : List Node) :
    List (String × Node) → List Occurrence
  | [] => []
  | (name, node) :: rest =>
      occurrences (.field path name) before node ++
        occurrencesRoutes path before rest
termination_by structural routes => routes

end

mutual

/-- The names that a tree binds on every way through it. -/
def must : Node → NameSet
  | .call invocation => NameSet.ofList invocation.output.toList
  | .sequence steps => mustAny steps
  | .branch _ _ none => ∅
  | .branch _ whenTrue (some otherwise) =>
      (must whenTrue).inter (must otherwise)
  | .fanout branches _ => mustAny branches
  | .dispatch _ _ _ => ∅

def mustAny : List Node → NameSet
  | [] => ∅
  | node :: rest => (must node).union (mustAny rest)

end

end Node

@[simp] theorem NameSet.not_mem_empty (name : String) :
    name ∉ (∅ : NameSet) := by
  simp [NameSet.mem_def, EmptyCollection.emptyCollection, NameSet.empty]

namespace Node

variable {name : String}

mutual

/-- A name is bound for sure behind a tree when it was before, or the tree
binds it. -/
theorem mem_guaranteed_flow (scope : Scope) (path : Path) (node : Node) :
    name ∈ (node.flow scope path).outcome.guaranteed ↔
      name ∈ scope.guaranteed ∨ name ∈ node.must := by
  cases node with
  | call invocation =>
      cases invocation with
      | mk tool params output =>
          cases output with
          | none => simp [flow, must]
          | some target => simp [flow, must, or_comm]
  | sequence steps => exact mem_guaranteed_flowSteps scope path 0 steps
  | branch condition whenTrue otherwise =>
      cases otherwise with
      | none => simp [flow, must, Scope.skippable]
      | some otherwise =>
          have first :=
            mem_guaranteed_flow scope (.field path "if_true") whenTrue
          have second :=
            mem_guaranteed_flow scope (.field path "if_false") otherwise
          simp [flow, must, first, second, ← or_and_left]
  | fanout branches join =>
      have each := exists_mem_guaranteed_flowBranches scope path 0 branches
      simp only [flow, must, Scope.guaranteed_joinFanout,
        Scope.mem_guaranteed_unionAll]
      constructor
      · rintro (before | inBranch)
        · exact .inl before
        · exact (each.mp inBranch).imp_left And.left
      · rintro (before | inBranch)
        · exact .inl before
        · exact .inr (each.mpr (.inr inBranch))
  | dispatch routes rules fallback => simp [flow, must]

theorem mem_guaranteed_flowSteps (scope : Scope) (path : Path) (position : Nat)
    (steps : List Node) :
    name ∈ (flowSteps scope path position steps).outcome.guaranteed ↔
      name ∈ scope.guaranteed ∨ name ∈ mustAny steps := by
  cases steps with
  | nil => simp [flowSteps, mustAny]
  | cons node rest =>
      have first := mem_guaranteed_flow scope (path.item "steps" position) node
      have later := mem_guaranteed_flowSteps
        (node.flow scope (path.item "steps" position)).outcome path
          (position + 1) rest
      simp only [flowSteps, mustAny, later, first, NameSet.mem_union, or_assoc]

/-- Each branch keeps what was bound before, so a name is bound behind one of
them when there is one and the name was bound, or when one of them binds it. -/
theorem exists_mem_guaranteed_flowBranches
    (scope : Scope) (path : Path) (position : Nat) (branches : List Node) :
    (∃ branch ∈ (flowBranches scope path position branches).outcome,
      name ∈ branch.guaranteed) ↔
      name ∈ scope.guaranteed ∧ branches ≠ [] ∨ name ∈ mustAny branches := by
  cases branches with
  | nil => simp [flowBranches, mustAny]
  | cons node rest =>
      have first :=
        mem_guaranteed_flow scope (path.item "branches" position) node
      have later :=
        exists_mem_guaranteed_flowBranches scope path (position + 1) rest
      simp only [flowBranches, mustAny, List.mem_cons, exists_eq_or_imp, later,
        first, NameSet.mem_union, ne_eq, reduceCtorEq, not_false_eq_true,
        and_true]
      constructor
      · rintro ((before | here) | ⟨before, _⟩ | inRest)
        · exact .inl before
        · exact .inr (.inl here)
        · exact .inl before
        · exact .inr (.inr inRest)
      · rintro (before | here | inRest)
        · exact .inl (.inl before)
        · exact .inl (.inr here)
        · exact .inr (.inr inRest)

end

mutual

/-- Paths only go into findings. -/
theorem outcome_flow (scope : Scope) (path other : Path) (node : Node) :
    (node.flow scope path).outcome = (node.flow scope other).outcome := by
  cases node with
  | call invocation => rfl
  | sequence steps => exact outcome_flowSteps scope path other 0 0 steps
  | branch condition whenTrue otherwise =>
      have first :=
        outcome_flow scope (.field path "if_true") (.field other "if_true")
          whenTrue
      cases otherwise with
      | none => simp only [flow, first]
      | some otherwise =>
          have second :=
            outcome_flow scope (.field path "if_false")
              (.field other "if_false") otherwise
          simp only [flow, first, second]
  | fanout branches join =>
      simp only [flow, outcome_flowBranches scope path other 0 0 branches]
  | dispatch routes rules fallback =>
      simp only [flow, outcome_flowRoutes scope (.field path "sub_workflows")
        (.field other "sub_workflows") routes]

theorem outcome_flowSteps
    (scope : Scope) (path other : Path) (position offset : Nat)
    (steps : List Node) :
    (flowSteps scope path position steps).outcome =
      (flowSteps scope other offset steps).outcome := by
  cases steps with
  | nil => rfl
  | cons node rest =>
      have first :=
        outcome_flow scope (path.item "steps" position)
          (other.item "steps" offset) node
      simp only [flowSteps, first]
      exact outcome_flowSteps _ path other (position + 1) (offset + 1) rest

theorem outcome_flowBranches
    (scope : Scope) (path other : Path) (position offset : Nat)
    (branches : List Node) :
    (flowBranches scope path position branches).outcome =
      (flowBranches scope other offset branches).outcome := by
  cases branches with
  | nil => rfl
  | cons node rest =>
      simp only [flowBranches,
        outcome_flow scope (path.item "branches" position)
          (other.item "branches" offset) node,
        outcome_flowBranches scope path other (position + 1) (offset + 1) rest]

theorem outcome_flowRoutes
    (scope : Scope) (path other : Path) (routes : List (String × Node)) :
    (flowRoutes scope path routes).outcome =
      (flowRoutes scope other routes).outcome := by
  cases routes with
  | nil => rfl
  | cons route rest =>
      obtain ⟨name, node⟩ := route
      simp only [flowRoutes,
        outcome_flow scope (.field path name) (.field other name) node,
        outcome_flowRoutes scope path other rest]

end

end Node

namespace Scope

/-- The scope behind some steps. -/
def behind (scope : Scope) (steps : List Node) : Scope :=
  steps.foldl (fun scope step => (step.flow scope .document).outcome) scope

theorem behind_concat
    (scope : Scope) (steps : List Node) (step : Node) (path : Path) :
    scope.behind (steps ++ [step]) =
      (step.flow (scope.behind steps) path).outcome := by
  rw [behind, List.foldl_append]
  exact Node.outcome_flow _ .document path step

theorem mem_guaranteed_behind
    {scope : Scope} {steps : List Node} {name : String} :
    name ∈ (scope.behind steps).guaranteed ↔
      name ∈ scope.guaranteed ∨ ∃ step ∈ steps, name ∈ step.must := by
  unfold behind
  induction steps generalizing scope with
  | nil => simp
  | cons step rest induction =>
      simp only [List.foldl_cons, induction, Node.mem_guaranteed_flow,
        List.mem_cons, exists_eq_or_imp, or_assoc]

/-- What is to be said about a reference where it stands. -/
def findingsAt (scope : Scope) (occurrence : Occurrence) : List ScopeFinding :=
  (scope.behind occurrence.before).check occurrence.path occurrence.reference

variable (scope : Scope) (path : Path) (before : List Node)

theorem checkCondition_eq_flatMap (condition : String) :
    (scope.behind before).checkCondition path condition =
      (Occurrence.ofCondition path before condition).flatMap
        scope.findingsAt := by
  simp only [checkCondition, Occurrence.ofCondition, List.flatMap_map]
  rfl

theorem checkParams_eq_flatMap (params : Members) :
    (scope.behind before).checkParams path params =
      (Occurrence.ofParams path before params).flatMap scope.findingsAt := by
  simp only [checkParams, Occurrence.ofParams, List.flatMap_assoc]
  congr 1
  funext param
  cases param.2.references with
  | ok references =>
      rw [List.flatMap_map]
      rfl
  | error malformed => rfl

theorem checkRules_eq_flatMap (position : Nat) (rules : List Rule) :
    (scope.behind before).checkRules path position rules =
      (Occurrence.ofRules path before position rules).flatMap
        scope.findingsAt := by
  induction rules generalizing position with
  | nil => rfl
  | cons rule rest induction =>
      rw [checkRules, Occurrence.ofRules, List.flatMap_append,
        checkCondition_eq_flatMap, induction]

end Scope

namespace Node

variable (scope : Scope)

mutual

/-- The findings about a tree are those about its references, one after the
other. -/
theorem findings_flow (path : Path) (before : List Node) (node : Node) :
    (node.flow (scope.behind before) path).findings =
      (node.occurrences path before).flatMap scope.findingsAt := by
  cases node with
  | call invocation =>
      exact scope.checkParams_eq_flatMap _ before invocation.params
  | sequence steps => exact findings_flowSteps path 0 before steps
  | branch condition whenTrue otherwise =>
      have asked :=
        scope.checkCondition_eq_flatMap (.field path "condition") before
          condition
      have first := findings_flow (.field path "if_true") before whenTrue
      cases otherwise with
      | none =>
          simp only [flow, occurrences, asked, first, List.flatMap_append]
      | some otherwise =>
          have second :=
            findings_flow (.field path "if_false") before otherwise
          simp only [flow, occurrences, asked, first, second,
            List.flatMap_append]
  | fanout branches join => exact findings_flowBranches path 0 before branches
  | dispatch routes rules fallback =>
      have asked := scope.checkRules_eq_flatMap path before 0 rules
      have each :=
        findings_flowRoutes (.field path "sub_workflows") before routes
      simp only [flow, occurrences, asked, each, List.flatMap_append]
termination_by structural node

theorem findings_flowSteps
    (path : Path) (position : Nat) (before steps : List Node) :
    (flowSteps (scope.behind before) path position steps).findings =
      (occurrencesSteps path position before steps).flatMap
        scope.findingsAt := by
  cases steps with
  | nil => rfl
  | cons node rest =>
      have first := findings_flow (path.item "steps" position) before node
      have later :=
        findings_flowSteps path (position + 1) (before ++ [node]) rest
      rw [scope.behind_concat before node
        (path.item "steps" position)] at later
      simp only [flowSteps, occurrencesSteps, first, later,
        List.flatMap_append]
termination_by structural steps

theorem findings_flowBranches
    (path : Path) (position : Nat) (before branches : List Node) :
    (flowBranches (scope.behind before) path position branches).findings =
      (occurrencesBranches path position before branches).flatMap
        scope.findingsAt := by
  cases branches with
  | nil => rfl
  | cons node rest =>
      have first := findings_flow (path.item "branches" position) before node
      have later := findings_flowBranches path (position + 1) before rest
      simp only [flowBranches, occurrencesBranches, first, later,
        List.flatMap_append]
termination_by structural branches

theorem findings_flowRoutes
    (path : Path) (before : List Node) (routes : List (String × Node)) :
    (flowRoutes (scope.behind before) path routes).findings =
      (occurrencesRoutes path before routes).flatMap scope.findingsAt := by
  cases routes with
  | nil => rfl
  | cons route rest =>
      obtain ⟨name, node⟩ := route
      have first := findings_flow (.field path name) before node
      have later := findings_flowRoutes path before rest
      simp only [flowRoutes, occurrencesRoutes, first, later,
        List.flatMap_append]
termination_by structural routes

end

end Node

theorem Scope.unbound_mem_findingsAt
    {scope : Scope} {occurrence : Occurrence} :
    (∃ error, .unbound error ∈ scope.findingsAt occurrence) ↔
      occurrence.reference.root ∉
        (scope.behind occurrence.before).guaranteed := by
  unfold Scope.findingsAt Scope.check
  split
  · rename_i missing
    simp [missing]
  · rename_i bound
    split <;> simp [bound]

/-- Every reference is to an input, or to a name that one of the steps in front
of it binds on every way. -/
def Spec.Closed (spec : Spec) : Prop :=
  ∀ occurrence ∈ spec.workflow.occurrences (.field .document "workflow") [],
    occurrence.reference.root ∈ spec.inputs.map Input.name ∨
      ∃ step ∈ occurrence.before, occurrence.reference.root ∈ step.must

theorem Spec.errors_analyze_eq_nil {spec : Spec} :
    spec.analyze.errors = [] ↔ spec.Closed := by
  have found := spec.workflow.findings_flow
    (Scope.ofNames (NameSet.ofList (spec.inputs.map Input.name)))
    (.field .document "workflow") []
  simp only [Spec.analyze, Node.analyze, List.eq_nil_iff_forall_not_mem,
    ScopeReport.mem_errorsOf]
  rw [Scope.behind, List.foldl_nil] at found
  rw [found]
  simp only [List.mem_flatMap, not_exists, not_and]
  rw [forall_comm]
  constructor
  · intro clean occurrence member
    have bound : ¬ ∃ error, ScopeFinding.unbound error ∈ _ :=
      not_exists.mpr fun error => clean occurrence error member
    rw [Scope.unbound_mem_findingsAt, Classical.not_not,
      Scope.mem_guaranteed_behind] at bound
    simpa only [Scope.ofNames, NameSet.mem_ofList] using bound
  · intro closed occurrence error member unbound
    have missing := Scope.unbound_mem_findingsAt.mp ⟨error, unbound⟩
    rw [Scope.mem_guaranteed_behind] at missing
    have bound := closed occurrence member
    simp only [Scope.ofNames, NameSet.mem_ofList] at missing
    exact missing bound

end Workflow
