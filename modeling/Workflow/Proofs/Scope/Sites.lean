import Workflow.Proofs.Scope.ClosedForm

/-!
# Sites of a tree

A node stands at a path and behind the steps in front of it in the sequences
around it.  The references of a tree are those that its nodes hold themselves,
node by node from the root on.
-/

namespace Workflow

/-- A node of a tree, its path, and the steps that lie before it in the
sequences around it. -/
structure Site where
  path : Path
  before : List Node
  node : Node

/-- The references that a node holds itself, and not in one of its children. -/
def Site.occurrences (site : Site) : List Occurrence :=
  match site.node with
  | .call invocation =>
      Occurrence.ofParams (.field site.path "params") site.before
        invocation.params
  | .branch condition _ _ =>
      Occurrence.ofCondition (.field site.path "condition") site.before
        condition
  | .dispatch _ rules _ => Occurrence.ofRules site.path site.before 0 rules
  | _ => []

/-- The references of a node itself stand at a place. -/
def Site.Holds (site : Site) (place : Path) : Prop :=
  match site.node with
  | .call _ => ∃ key, place = .field (.field site.path "params") key
  | .branch _ _ _ => place = .field site.path "condition"
  | .dispatch _ _ _ =>
      ∃ position, place = .field (site.path.item "rules" position) "condition"
  | _ => False

theorem Occurrence.of_mem_ofCondition
    {path : Path} {before : List Node} {condition : String}
    {occurrence : Occurrence}
    (member : occurrence ∈ ofCondition path before condition) :
    occurrence.path = path ∧ occurrence.before = before := by
  obtain ⟨reference, _, rfl⟩ := List.mem_map.mp member
  exact ⟨rfl, rfl⟩

theorem Occurrence.of_mem_ofParams
    {path : Path} {before : List Node} {params : Members}
    {occurrence : Occurrence}
    (member : occurrence ∈ ofParams path before params) :
    (∃ key, occurrence.path = .field path key) ∧
    occurrence.before = before := by
  obtain ⟨param, _, inParam⟩ := List.mem_flatMap.mp member
  split at inParam
  · obtain ⟨reference, _, rfl⟩ := List.mem_map.mp inParam
    exact ⟨⟨param.1, rfl⟩, rfl⟩
  · cases inParam

theorem Occurrence.of_mem_ofRules
    {path : Path} {before : List Node} {start : Nat} {rules : List Rule}
    {occurrence : Occurrence}
    (member : occurrence ∈ ofRules path before start rules) :
    (∃ position,
      occurrence.path = .field (path.item "rules" position) "condition") ∧
      occurrence.before = before := by
  induction rules generalizing start with
  | nil => cases member
  | cons rule rest induction =>
      rcases List.mem_append.mp member with here | later
      · obtain ⟨stands, behind⟩ := of_mem_ofCondition here
        exact ⟨⟨start, stands⟩, behind⟩
      · exact induction later

theorem Site.of_mem_occurrences {site : Site} {occurrence : Occurrence}
    (member : occurrence ∈ site.occurrences) :
    site.Holds occurrence.path ∧ occurrence.before = site.before := by
  obtain ⟨path, before, node⟩ := site
  cases node with
  | call invocation => exact Occurrence.of_mem_ofParams member
  | branch condition whenTrue otherwise =>
      exact Occurrence.of_mem_ofCondition member
  | dispatch routes rules fallback => exact Occurrence.of_mem_ofRules member
  | sequence steps => cases member
  | fanout branches join => cases member

namespace Node

mutual

/-- The sites of a tree that stands behind some steps, each before those of its
children. -/
def sites (path : Path) (before : List Node) (node : Node) : List Site :=
  ⟨path, before, node⟩ ::
    match node with
    | .call _ => []
    | .sequence steps => sitesSteps path 0 before steps
    | .branch _ whenTrue none => sites (.field path "if_true") before whenTrue
    | .branch _ whenTrue (some otherwise) =>
        sites (.field path "if_true") before whenTrue ++
          sites (.field path "if_false") before otherwise
    | .fanout branches _ => sitesBranches path 0 before branches
    | .dispatch routes _ _ =>
        sitesRoutes (.field path "sub_workflows") before routes
termination_by structural node

def sitesSteps (path : Path) (position : Nat) (before : List Node) :
    List Node → List Site
  | [] => []
  | node :: rest =>
      sites (path.item "steps" position) before node ++
        sitesSteps path (position + 1) (before ++ [node]) rest
termination_by structural steps => steps

def sitesBranches (path : Path) (position : Nat) (before : List Node) :
    List Node → List Site
  | [] => []
  | node :: rest =>
      sites (path.item "branches" position) before node ++
        sitesBranches path (position + 1) before rest
termination_by structural branches => branches

def sitesRoutes (path : Path) (before : List Node) :
    List (String × Node) → List Site
  | [] => []
  | (name, node) :: rest =>
      sites (.field path name) before node ++ sitesRoutes path before rest
termination_by structural routes => routes

end

theorem mem_sites_self (path : Path) (before : List Node) (node : Node) :
    ⟨path, before, node⟩ ∈ node.sites path before := by
  unfold sites
  exact List.mem_cons_self

mutual

/-- The references of a tree are those of its sites, in the same order. -/
theorem occurrences_eq_flatMap_sites
    (path : Path) (before : List Node) (node : Node) :
    node.occurrences path before =
      (node.sites path before).flatMap Site.occurrences := by
  cases node with
  | call invocation => simp [occurrences, sites, Site.occurrences]
  | sequence steps =>
      simp [occurrences, sites, Site.occurrences,
        occurrencesSteps_eq_flatMap_sites path 0 before steps]
  | branch condition whenTrue otherwise =>
      have first :=
        occurrences_eq_flatMap_sites (.field path "if_true") before whenTrue
      cases otherwise with
      | none => simp [occurrences, sites, Site.occurrences, first]
      | some otherwise =>
          have second :=
            occurrences_eq_flatMap_sites (.field path "if_false") before
              otherwise
          simp [occurrences, sites, Site.occurrences, first, second]
  | fanout branches join =>
      simp [occurrences, sites, Site.occurrences,
        occurrencesBranches_eq_flatMap_sites path 0 before branches]
  | dispatch routes rules fallback =>
      simp [occurrences, sites, Site.occurrences,
        occurrencesRoutes_eq_flatMap_sites (.field path "sub_workflows") before
          routes]
termination_by structural node

theorem occurrencesSteps_eq_flatMap_sites (path : Path) (position : Nat)
    (before steps : List Node) :
    occurrencesSteps path position before steps =
      (sitesSteps path position before steps).flatMap Site.occurrences := by
  cases steps with
  | nil => rfl
  | cons node rest =>
      rw [occurrencesSteps, sitesSteps, List.flatMap_append,
        occurrences_eq_flatMap_sites (path.item "steps" position) before node,
        occurrencesSteps_eq_flatMap_sites path (position + 1)
          (before ++ [node]) rest]
termination_by structural steps

theorem occurrencesBranches_eq_flatMap_sites (path : Path) (position : Nat)
    (before branches : List Node) :
    occurrencesBranches path position before branches =
      (sitesBranches path position before branches).flatMap
        Site.occurrences := by
  cases branches with
  | nil => rfl
  | cons node rest =>
      rw [occurrencesBranches, sitesBranches, List.flatMap_append,
        occurrences_eq_flatMap_sites (path.item "branches" position) before
          node,
        occurrencesBranches_eq_flatMap_sites path (position + 1) before rest]
termination_by structural branches

theorem occurrencesRoutes_eq_flatMap_sites (path : Path) (before : List Node)
    (routes : List (String × Node)) :
    occurrencesRoutes path before routes =
      (sitesRoutes path before routes).flatMap Site.occurrences := by
  cases routes with
  | nil => rfl
  | cons route rest =>
      obtain ⟨name, node⟩ := route
      rw [occurrencesRoutes, sitesRoutes, List.flatMap_append,
        occurrences_eq_flatMap_sites (.field path name) before node,
        occurrencesRoutes_eq_flatMap_sites path before rest]
termination_by structural routes

end

end Node

end Workflow
