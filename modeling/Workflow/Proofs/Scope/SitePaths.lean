import Workflow.Proofs.Scope.Sites

/-!
# Paths of sites

A lookup is known by its path, so the path has to tell which node it belongs
to.  The children of a node stand below fields of their own, and below other
fields than the parameters and conditions of the node itself; hence a place
belongs to one node only, as long as no orchestrator has two routes of one
name.
-/

namespace Workflow

namespace Path

/-- A path goes on from another one. -/
inductive Below (base : Path) : Path → Prop where
  | self : Below base base
  | field {path : Path} (key : String) :
      Below base path → Below base (.field path key)
  | index {path : Path} (position : Nat) :
      Below base path → Below base (.index path position)

namespace Below

variable {base other path : Path}

theorem trans (first : base.Below other) (second : other.Below path) :
    base.Below path := by
  induction second with
  | self => exact first
  | field key _ induction => exact induction.field key
  | index position _ induction => exact induction.index position

/-- Of two paths that a path goes on from, one goes on from the other. -/
theorem total (first : base.Below path) (second : other.Below path) :
    base.Below other ∨ other.Below base := by
  induction first with
  | self => exact .inr second
  | field key below induction =>
      cases second with
      | self => exact .inl (below.field key)
      | field _ second => exact induction second
  | index position below induction =>
      cases second with
      | self => exact .inl (below.index position)
      | index _ second => exact induction second

theorem sizeOf_le (below : base.Below path) : sizeOf base ≤ sizeOf path := by
  induction below with
  | self => exact Nat.le_refl _
  | field key _ induction => simp only [field.sizeOf_spec]; omega
  | index position _ induction => simp only [index.sizeOf_spec]; omega

theorem not_below_parent (key : String) :
    ¬ (Path.field path key).Below path := by
  intro below
  have := below.sizeOf_le
  simp only [field.sizeOf_spec] at this
  omega

theorem eq_of_field_field
    {key otherKey : String}
    (below : (Path.field base key).Below (.field base otherKey)) :
    key = otherKey := by
  cases below with
  | self => rfl
  | field _ below => exact (not_below_parent key below).elim

/-- A path goes on from one field of an object only. -/
theorem field_unique
    {key otherKey : String} (first : (Path.field base key).Below path)
    (second : (Path.field base otherKey).Below path) :
    key = otherKey := by
  rcases first.total second with down | up
  · exact eq_of_field_field down
  · exact (eq_of_field_field up).symm

end Below

/-- A path goes on from one item of an array only. -/
theorem Below.item_unique
    {base path : Path} {key : String} {position other : Nat}
    (first : (base.item key position).Below path)
    (second : (base.item key other).Below path) :
    position = other := by
  have same :
      ∀ {here there : Nat}, (base.item key here).Below (base.item key there) →
      here = there := by
    intro here there below
    cases below with
    | self => rfl
    | index _ below =>
        have smaller := below.sizeOf_le
        simp only [item, index.sizeOf_spec] at smaller
        omega
  rcases first.total second with down | up
  · exact same down
  · exact (same up).symm

/-- An item of an array is below the field that holds the array. -/
theorem below_item (base : Path) (key : String) (position : Nat) :
    (Path.field base key).Below (base.item key position) :=
  Below.self.index position

end Path

theorem Site.Holds.below
    {site : Site} {place : Path} (holds : site.Holds place) :
    ∃ key ∈ ["params", "condition", "rules"],
      (Path.field site.path key).Below place := by
  obtain ⟨path, before, node⟩ := site
  cases node with
  | call invocation =>
      obtain ⟨key, rfl⟩ := holds
      exact ⟨"params", by simp, Path.Below.self.field key⟩
  | branch condition whenTrue otherwise =>
      obtain rfl := holds
      exact ⟨"condition", by simp, Path.Below.self⟩
  | dispatch routes rules fallback =>
      obtain ⟨position, rfl⟩ := holds
      exact ⟨"rules", by simp,
        (Path.below_item path "rules" position).field "condition"⟩
  | sequence steps => cases holds
  | fanout branches join => cases holds

/-- No place is held by two sites of a list. -/
def HeldOnce (sites : List Site) : Prop :=
  ∀ first ∈ sites, ∀ second ∈ sites, ∀ place,
    first.Holds place → second.Holds place → first = second

namespace HeldOnce

variable {site : Site} {sites others : List Site}

theorem nil : HeldOnce [] :=
  fun _ member => nomatch member

theorem append (left : HeldOnce sites) (right : HeldOnce others)
    (disjoint : ∀ first ∈ sites, ∀ second ∈ others, ∀ place,
      first.path.Below place → ¬ second.path.Below place) :
    HeldOnce (sites ++ others) := by
  have below : ∀ {site : Site} {place : Path},
      site.Holds place → site.path.Below place := by
    intro site place holds
    obtain ⟨key, _, below⟩ := holds.below
    exact (Path.Below.self.field key).trans below
  intro first isFirst second isSecond place holdsFirst holdsSecond
  rcases List.mem_append.mp isFirst with firstLeft | firstRight
  · rcases List.mem_append.mp isSecond with secondLeft | secondRight
    · exact left first firstLeft second secondLeft place holdsFirst holdsSecond
    · exact (disjoint first firstLeft second secondRight place
          (below holdsFirst) (below holdsSecond)).elim
  · rcases List.mem_append.mp isSecond with secondLeft | secondRight
    · exact (disjoint second secondLeft first firstRight place
          (below holdsSecond) (below holdsFirst)).elim
    · exact right first firstRight second secondRight place holdsFirst
        holdsSecond

/-- Items of one array are apart from the items behind them. -/
theorem append_items
    {path : Path} {key : String} {position : Nat} (left : HeldOnce sites)
    (right : HeldOnce others)
    (inLeft : ∀ site ∈ sites, (path.item key position).Below site.path)
    (inRight : ∀ site ∈ others, ∃ offset,
      position + 1 ≤ offset ∧ (path.item key offset).Below site.path) :
    HeldOnce (sites ++ others) := by
  refine left.append right ?_
  intro first isFirst second isSecond place belowFirst belowSecond
  obtain ⟨offset, behind, inLater⟩ := inRight second isSecond
  have same :=
    ((inLeft first isFirst).trans belowFirst).item_unique
      (inLater.trans belowSecond)
  omega

/-- What a node holds itself does not stand in one of its children. -/
theorem cons (children : HeldOnce sites)
    (inside : ∀ child ∈ sites, ∃ key ∉ ["params", "condition", "rules"],
      (Path.field site.path key).Below child.path) :
    HeldOnce (site :: sites) := by
  have apart :
      ∀ child ∈ sites, ∀ place, site.Holds place → ¬ child.Holds place := by
    intro child isChild place holdsSite holdsChild
    obtain ⟨key, own, below⟩ := holdsSite.below
    obtain ⟨other, notOwn, around⟩ := inside child isChild
    obtain ⟨inner, _, belowChild⟩ := holdsChild.below
    have same :=
      below.field_unique
        (around.trans ((Path.Below.self.field inner).trans belowChild))
    exact notOwn (same ▸ own)
  intro first isFirst second isSecond place holdsFirst holdsSecond
  rcases List.mem_cons.mp isFirst with firstHere | firstLater
  · rcases List.mem_cons.mp isSecond with secondHere | secondLater
    · rw [firstHere, secondHere]
    · exact (apart second secondLater place (firstHere ▸ holdsFirst)
          holdsSecond).elim
  · rcases List.mem_cons.mp isSecond with secondHere | secondLater
    · exact (apart first firstLater place (secondHere ▸ holdsSecond)
          holdsFirst).elim
    · exact children first firstLater second secondLater place holdsFirst
        holdsSecond

end HeldOnce

namespace Node

mutual

theorem below_of_mem_sites (path : Path) (before : List Node) (node : Node) :
    ∀ site ∈ node.sites path before, path.Below site.path := by
  intro site member
  unfold sites at member
  rcases List.mem_cons.mp member with here | inside
  · rw [here]
    exact .self
  cases node with
  | call invocation => cases inside
  | sequence steps =>
      obtain ⟨position, _, below⟩ :=
        below_of_mem_sitesSteps path 0 before steps site inside
      exact (Path.Below.self.field "steps").trans
        ((path.below_item "steps" position).trans below)
  | branch condition whenTrue otherwise =>
      have first :=
        below_of_mem_sites (.field path "if_true") before whenTrue site
      cases otherwise with
      | none => exact (Path.Below.self.field "if_true").trans (first inside)
      | some otherwise =>
          rcases List.mem_append.mp inside with inTrue | inFalse
          · exact (Path.Below.self.field "if_true").trans (first inTrue)
          · exact (Path.Below.self.field "if_false").trans
              (below_of_mem_sites (.field path "if_false") before otherwise
                site inFalse)
  | fanout branches join =>
      obtain ⟨position, _, below⟩ :=
        below_of_mem_sitesBranches path 0 before branches site inside
      exact (Path.Below.self.field "branches").trans
        ((path.below_item "branches" position).trans below)
  | dispatch routes rules fallback =>
      obtain ⟨name, _, below⟩ :=
        below_of_mem_sitesRoutes (.field path "sub_workflows") before routes
          site inside
      exact ((Path.Below.self.field "sub_workflows").field name).trans below
termination_by structural node

theorem below_of_mem_sitesSteps
    (path : Path) (position : Nat) (before steps : List Node) :
    ∀ site ∈ sitesSteps path position before steps,
      ∃ offset,
        position ≤ offset ∧ (path.item "steps" offset).Below site.path := by
  intro site member
  cases steps with
  | nil => cases member
  | cons node rest =>
      rcases List.mem_append.mp member with here | later
      · exact ⟨position, Nat.le_refl _,
          below_of_mem_sites _ before node site here⟩
      · obtain ⟨offset, behind, below⟩ :=
          below_of_mem_sitesSteps path (position + 1) (before ++ [node]) rest
            site later
        exact ⟨offset, Nat.le_of_succ_le behind, below⟩
termination_by structural steps

theorem below_of_mem_sitesBranches (path : Path) (position : Nat)
    (before branches : List Node) :
    ∀ site ∈ sitesBranches path position before branches,
      ∃ offset,
        position ≤ offset ∧ (path.item "branches" offset).Below site.path := by
  intro site member
  cases branches with
  | nil => cases member
  | cons node rest =>
      rcases List.mem_append.mp member with here | later
      · exact ⟨position, Nat.le_refl _,
          below_of_mem_sites _ before node site here⟩
      · obtain ⟨offset, behind, below⟩ :=
          below_of_mem_sitesBranches path (position + 1) before rest site later
        exact ⟨offset, Nat.le_of_succ_le behind, below⟩
termination_by structural branches

theorem below_of_mem_sitesRoutes (path : Path) (before : List Node)
    (routes : List (String × Node)) :
    ∀ site ∈ sitesRoutes path before routes,
      ∃ name ∈ routes.map Prod.fst,
        (Path.field path name).Below site.path := by
  intro site member
  cases routes with
  | nil => cases member
  | cons route rest =>
      obtain ⟨name, node⟩ := route
      rcases List.mem_append.mp member with here | later
      · exact ⟨name, List.mem_cons_self,
          below_of_mem_sites _ before node site here⟩
      · obtain ⟨other, isRoute, below⟩ :=
          below_of_mem_sitesRoutes path before rest site later
        exact ⟨other, List.mem_cons_of_mem _ isRoute, below⟩
termination_by structural routes

end

/-- An orchestrator has no two routes of one name. -/
def HasDistinctRoutes : Node → Prop
  | .dispatch routes _ _ => (routes.map Prod.fst).Nodup
  | _ => True

instance : DecidablePred HasDistinctRoutes
  | .dispatch _ _ _ => inferInstanceAs (Decidable (List.Nodup _))
  | .call _ | .sequence _ | .branch _ _ _ | .fanout _ _ => isTrue trivial

mutual

/-- A place belongs to one site only, if route names tell routes apart. -/
theorem heldOnce_sites (path : Path) (before : List Node) (node : Node)
    (distinct : ∀ site ∈ node.sites path before, site.node.HasDistinctRoutes) :
    HeldOnce (node.sites path before) := by
  unfold sites at distinct ⊢
  obtain ⟨own, children⟩ := List.forall_mem_cons.mp distinct
  cases node with
  | call invocation =>
      exact HeldOnce.nil.cons (fun child member => nomatch member)
  | sequence steps =>
      refine (heldOnce_sitesSteps path 0 before steps children).cons ?_
      intro child member
      obtain ⟨position, _, below⟩ :=
        below_of_mem_sitesSteps path 0 before steps child member
      exact ⟨"steps", by simp, (path.below_item "steps" position).trans below⟩
  | branch condition whenTrue otherwise =>
      have first := below_of_mem_sites (.field path "if_true") before whenTrue
      cases otherwise with
      | none =>
          refine (heldOnce_sites (.field path "if_true") before whenTrue
              children).cons ?_
          intro child member
          exact ⟨"if_true", by simp, first child member⟩
      | some otherwise =>
          have second :=
            below_of_mem_sites (.field path "if_false") before otherwise
          obtain ⟨inTrue, inFalse⟩ := List.forall_mem_append.mp children
          have arms :=
            (heldOnce_sites (.field path "if_true") before whenTrue
              inTrue).append
              (heldOnce_sites (.field path "if_false") before otherwise
                inFalse) (by
              intro left isLeft right isRight place belowLeft belowRight
              have same := ((first left isLeft).trans belowLeft).field_unique
                ((second right isRight).trans belowRight)
              simp at same)
          refine arms.cons ?_
          intro child member
          rcases List.mem_append.mp member with isLeft | isRight
          · exact ⟨"if_true", by simp, first child isLeft⟩
          · exact ⟨"if_false", by simp, second child isRight⟩
  | fanout branches join =>
      refine (heldOnce_sitesBranches path 0 before branches children).cons ?_
      intro child member
      obtain ⟨position, _, below⟩ :=
        below_of_mem_sitesBranches path 0 before branches child member
      exact ⟨"branches", by simp,
        (path.below_item "branches" position).trans below⟩
  | dispatch routes rules fallback =>
      refine (heldOnce_sitesRoutes (.field path "sub_workflows") before routes
          own children).cons ?_
      intro child member
      obtain ⟨name, _, below⟩ :=
        below_of_mem_sitesRoutes (.field path "sub_workflows") before routes
          child member
      exact ⟨"sub_workflows", by simp,
        (Path.Below.self.field name).trans below⟩
termination_by structural node

theorem heldOnce_sitesSteps
    (path : Path) (position : Nat) (before steps : List Node)
    (distinct : ∀ site ∈ sitesSteps path position before steps,
      site.node.HasDistinctRoutes) :
    HeldOnce (sitesSteps path position before steps) := by
  cases steps with
  | nil => exact .nil
  | cons node rest =>
      obtain ⟨here, later⟩ := List.forall_mem_append.mp distinct
      exact (heldOnce_sites _ before node here).append_items
        (heldOnce_sitesSteps path (position + 1) (before ++ [node]) rest later)
        (below_of_mem_sites _ before node)
        (below_of_mem_sitesSteps path (position + 1) (before ++ [node]) rest)
termination_by structural steps

theorem heldOnce_sitesBranches
    (path : Path) (position : Nat) (before branches : List Node)
    (distinct : ∀ site ∈ sitesBranches path position before branches,
      site.node.HasDistinctRoutes) :
    HeldOnce (sitesBranches path position before branches) := by
  cases branches with
  | nil => exact .nil
  | cons node rest =>
      obtain ⟨here, later⟩ := List.forall_mem_append.mp distinct
      exact (heldOnce_sites _ before node here).append_items
        (heldOnce_sitesBranches path (position + 1) before rest later)
        (below_of_mem_sites _ before node)
        (below_of_mem_sitesBranches path (position + 1) before rest)
termination_by structural branches

theorem heldOnce_sitesRoutes
    (path : Path) (before : List Node) (routes : List (String × Node))
    (names : (routes.map Prod.fst).Nodup)
    (distinct : ∀ site ∈ sitesRoutes path before routes,
      site.node.HasDistinctRoutes) :
    HeldOnce (sitesRoutes path before routes) := by
  cases routes with
  | nil => exact .nil
  | cons route rest =>
      obtain ⟨name, node⟩ := route
      obtain ⟨fresh, namesOfRest⟩ := List.nodup_cons.mp names
      obtain ⟨here, later⟩ := List.forall_mem_append.mp distinct
      refine (heldOnce_sites _ before node here).append
        (heldOnce_sitesRoutes path before rest namesOfRest later) ?_
      intro first isFirst second isSecond place belowFirst belowSecond
      have inFirst := below_of_mem_sites _ before node first isFirst
      obtain ⟨other, isRoute, inLater⟩ :=
        below_of_mem_sitesRoutes path before rest second isSecond
      have same :=
        (inFirst.trans belowFirst).field_unique (inLater.trans belowSecond)
      exact fresh (same ▸ isRoute)
termination_by structural routes

end

end Node

end Workflow
