import Workflow.Proofs.Scope.Detours
import Workflow.Proofs.Scope.Sites

/-!
# Names that are settled

A name is settled at a point when the analysis has it for sure and no race can
take it away.  It stays settled from there on.  Where a name is not settled
behind some steps, every one of them can be gone through without binding it,
with one exception: a fanout binds the name in every run, but a race had left
it open before or inside of it, and the analysis goes on to take it for open.
-/

namespace Workflow

namespace Scope

/-- A name is bound for sure, and no race takes it away. -/
def Settles (scope : Scope) (name : String) : Prop :=
  name ∈ scope.guaranteed ∧ name ∉ scope.cancellable

variable {scope whenTrue otherwise : Scope} {branches : List Scope}
  {name : String}

theorem settles_ofNames {incoming : NameSet} (isIncoming : name ∈ incoming) :
    (ofNames incoming).Settles name :=
  ⟨isIncoming, NameSet.not_mem_empty name⟩

theorem settles_bind (scope : Scope) (name : String) :
    (scope.bind name).Settles name := by
  constructor
  · exact mem_guaranteed_bind.mpr (.inl rfl)
  · intro lost
    exact (mem_cancellable_bind.mp lost).2 rfl

theorem Settles.bind (settled : scope.Settles name) (target : String) :
    (scope.bind target).Settles name := by
  constructor
  · exact mem_guaranteed_bind.mpr (.inr settled.1)
  · intro lost
    exact settled.2 (mem_cancellable_bind.mp lost).1

theorem Settles.joinArms
    (first : whenTrue.Settles name) (second : otherwise.Settles name) :
    (whenTrue.joinArms otherwise).Settles name := by
  constructor
  · exact mem_guaranteed_joinArms.mpr ⟨first.1, second.1⟩
  · intro lost
    rcases (mem_cancellable_joinArms.mp lost).1 with inTrue | inFalse
    · exact first.2 inTrue
    · exact second.2 inFalse

theorem Settles.foldl_skippable
    (settled : scope.Settles name) (routes : List Scope) :
    (routes.foldl Scope.skippable scope).Settles name := by
  unfold Settles
  rw [guaranteed_foldl_skippable, cancellable_foldl_skippable]
  exact settled

theorem Settles.joinFanout (settled : scope.Settles name)
    (each : ∀ branch ∈ branches, branch.Settles name) (join : JoinPolicy) :
    (scope.joinFanout branches join).Settles name := by
  have notLost :
      ¬ (name ∈ scope.cancellable ∨
          ∃ branch ∈ branches, name ∈ branch.cancellable) := by
    rintro (before | ⟨branch, member, lost⟩)
    · exact settled.2 before
    · exact (each branch member).2 lost
  constructor
  · rw [guaranteed_joinFanout, mem_guaranteed_unionAll]
    exact .inl settled.1
  · cases join with
    | waitForAll => exact mt mem_cancellable_unionAll.mp notLost
    | firstToFinish =>
        rw [mem_cancellable_joinFanout_firstToFinish]
        rintro (lost | ⟨unbound, _⟩)
        · exact notLost lost
        · exact unbound settled.1

end Scope

namespace Node

variable {name : String}

mutual

/-- A settled name stays settled. -/
theorem settles_flow
    {scope : Scope} (settled : scope.Settles name) (path : Path)
    (node : Node) :
    (node.flow scope path).outcome.Settles name := by
  cases node with
  | call invocation =>
      unfold flow
      cases invocation.output with
      | none => exact settled
      | some target => exact settled.bind target
  | sequence steps => exact settles_flowSteps settled path 0 steps
  | branch condition whenTrue otherwise =>
      cases otherwise with
      | none => exact settled
      | some otherwise =>
          exact (settles_flow settled (.field path "if_true")
              whenTrue).joinArms
            (settles_flow settled (.field path "if_false") otherwise)
  | fanout branches join =>
      exact settled.joinFanout (settles_flowBranches settled path 0 branches)
        join
  | dispatch routes rules fallback => exact settled.foldl_skippable _
termination_by structural node

theorem settles_flowSteps
    {scope : Scope} (settled : scope.Settles name) (path : Path)
    (position : Nat) (steps : List Node) :
    (flowSteps scope path position steps).outcome.Settles name := by
  cases steps with
  | nil => exact settled
  | cons node rest =>
      exact settles_flowSteps
        (settles_flow settled (path.item "steps" position) node) path
        (position + 1) rest
termination_by structural steps

theorem settles_flowBranches
    {scope : Scope} (settled : scope.Settles name) (path : Path)
    (position : Nat) (branches : List Node) :
    ∀ branch ∈ (flowBranches scope path position branches).outcome,
      branch.Settles name := by
  cases branches with
  | nil => exact fun branch member => nomatch member
  | cons node rest =>
      exact List.forall_mem_cons.mpr
        ⟨settles_flow settled (path.item "branches" position) node,
          settles_flowBranches settled path (position + 1) rest⟩
termination_by structural branches

end

mutual

/-- Whether a tree binds a name again on every way, by calls alone and not
through a fanout. -/
def renews (name : String) : Node → Bool
  | .call invocation => invocation.output == some name
  | .sequence steps => renewsOne name steps
  | .branch _ _ none => false
  | .branch _ whenTrue (some otherwise) =>
      renews name whenTrue && renews name otherwise
  | .fanout _ _ => false
  | .dispatch _ _ _ => false

def renewsOne (name : String) : List Node → Bool
  | [] => false
  | node :: rest => renews name node || renewsOne name rest

end

mutual

/-- A name that is bound again is settled, whatever it was before. -/
theorem settles_of_renews
    (scope : Scope) (path : Path) (node : Node)
    (renewed : node.renews name = true) :
    (node.flow scope path).outcome.Settles name := by
  cases node with
  | call invocation =>
      have isTarget : invocation.output = some name := beq_iff_eq.mp renewed
      unfold flow
      rw [isTarget]
      exact scope.settles_bind name
  | sequence steps => exact settles_of_renewsOne scope path 0 steps renewed
  | branch condition whenTrue otherwise =>
      cases otherwise with
      | none => cases renewed
      | some otherwise =>
          rw [renews, Bool.and_eq_true] at renewed
          exact (settles_of_renews scope (.field path "if_true") whenTrue
              renewed.1).joinArms
            (settles_of_renews scope (.field path "if_false") otherwise
              renewed.2)
  | fanout branches join => cases renewed
  | dispatch routes rules fallback => cases renewed
termination_by structural node

theorem settles_of_renewsOne
    (scope : Scope) (path : Path) (position : Nat) (steps : List Node)
    (renewed : renewsOne name steps = true) :
    (flowSteps scope path position steps).outcome.Settles name := by
  cases steps with
  | nil => cases renewed
  | cons node rest =>
      rw [renewsOne, Bool.or_eq_true] at renewed
      rcases renewed with here | later
      · exact settles_flowSteps
          (settles_of_renews scope (path.item "steps" position) node here) path
          (position + 1) rest
      · exact settles_of_renewsOne _ path (position + 1) rest later
termination_by structural steps

end

end Node

namespace Scope

variable {scope : Scope} {name : String}

theorem Settles.behind (settled : scope.Settles name) (steps : List Node) :
    (scope.behind steps).Settles name := by
  unfold Scope.behind
  induction steps generalizing scope with
  | nil => exact settled
  | cons step rest induction =>
      exact induction (Node.settles_flow settled .document step)

theorem settles_behind_of_renews
    {steps : List Node} {step : Node} (member : step ∈ steps)
    (renewed : step.renews name = true) :
    (scope.behind steps).Settles name := by
  obtain ⟨earlier, later, rfl⟩ := List.append_of_mem member
  rw [behind, List.foldl_append, List.foldl_cons]
  exact (Node.settles_of_renews _ .document step renewed).behind later

end Scope

namespace Scope

variable (scope : Scope)

theorem behind_append (first later : List Node) :
    scope.behind (first ++ later) = (scope.behind first).behind later :=
  List.foldl_append

theorem outcome_flowSteps_eq_behind
    (path : Path) (position : Nat) (steps : List Node) :
    (Node.flowSteps scope path position steps).outcome =
      scope.behind steps := by
  induction steps generalizing scope position with
  | nil => rfl
  | cons node rest induction =>
      rw [Node.flowSteps, induction, Node.outcome_flow scope _ .document node]
      rfl

theorem outcome_flowBranches_eq_map
    (path : Path) (position : Nat) (before branches : List Node) :
    (Node.flowBranches (scope.behind before) path position branches).outcome =
      branches.map fun branch => scope.behind (before ++ [branch]) := by
  induction branches generalizing position with
  | nil => rfl
  | cons node rest induction =>
      rw [Node.flowBranches, induction, List.map_cons,
        scope.behind_concat before node (path.item "branches" position)]

variable (before : List Node)

theorem behind_sequence (steps : List Node) :
    scope.behind (before ++ [.sequence steps]) =
      scope.behind (before ++ steps) := by
  rw [scope.behind_concat before _ .document, behind_append]
  exact outcome_flowSteps_eq_behind _ .document 0 steps

theorem behind_branch (condition : String) (whenTrue otherwise : Node) :
    scope.behind (before ++ [.branch condition whenTrue (some otherwise)]) =
      (scope.behind (before ++ [whenTrue])).joinArms
        (scope.behind (before ++ [otherwise])) := by
  rw [scope.behind_concat before _ .document,
    scope.behind_concat before whenTrue (.field .document "if_true"),
    scope.behind_concat before otherwise (.field .document "if_false")]
  rfl

theorem behind_fanout (branches : List Node) (join : JoinPolicy) :
    scope.behind (before ++ [.fanout branches join]) =
      (scope.behind before).joinFanout
        (branches.map fun branch => scope.behind (before ++ [branch]))
          join := by
  rw [scope.behind_concat before _ .document, Node.flow,
    outcome_flowBranches_eq_map]

end Scope

/-- Every name that a race takes away is one that is bound otherwise. -/
def Scope.Consistent (scope : Scope) : Prop :=
  ∀ name ∈ scope.cancellable, name ∈ scope.guaranteed

namespace Node

mutual

theorem consistent_flow
    {scope : Scope} (consistent : scope.Consistent) (path : Path)
    (node : Node) :
    (node.flow scope path).outcome.Consistent := by
  intro name lost
  cases node with
  | call invocation =>
      unfold flow at lost ⊢
      cases isOutput : invocation.output with
      | none =>
          rw [isOutput] at lost
          exact consistent name lost
      | some target =>
          rw [isOutput] at lost
          have old := (Scope.mem_cancellable_bind.mp lost).1
          exact Scope.mem_guaranteed_bind.mpr (.inr (consistent name old))
  | sequence steps =>
      exact consistent_flowSteps consistent path 0 steps name lost
  | branch condition whenTrue otherwise =>
      cases otherwise with
      | none => exact consistent name lost
      | some otherwise =>
          exact Scope.mem_guaranteed_joinArms.mpr
            (Scope.mem_cancellable_joinArms.mp lost).2
  | fanout branches join =>
      have inBranches := consistent_flowBranches consistent path 0 branches
      have known : name ∈ scope.cancellable ∨
          (∃ branch ∈ (flowBranches scope path 0 branches).outcome,
            name ∈ branch.cancellable) →
          name ∈
            (scope.unionAll
              (flowBranches scope path 0 branches).outcome).guaranteed := by
        rw [Scope.mem_guaranteed_unionAll]
        rintro (before | ⟨branch, member, inBranch⟩)
        · exact .inl (consistent name before)
        · exact .inr ⟨branch, member, inBranches branch member name inBranch⟩
      rw [flow, Scope.guaranteed_joinFanout]
      cases join with
      | waitForAll => exact known (Scope.mem_cancellable_unionAll.mp lost)
      | firstToFinish =>
          rcases Scope.mem_cancellable_joinFanout_firstToFinish.mp lost with
            old | ⟨_, bound, _⟩
          · exact known old
          · exact Scope.mem_guaranteed_unionAll.mpr (.inr bound)
  | dispatch routes rules fallback =>
      rw [flow, Scope.cancellable_foldl_skippable] at lost
      rw [flow, Scope.guaranteed_foldl_skippable]
      exact consistent name lost
termination_by structural node

theorem consistent_flowSteps
    {scope : Scope} (consistent : scope.Consistent) (path : Path)
    (position : Nat) (steps : List Node) :
    (flowSteps scope path position steps).outcome.Consistent := by
  cases steps with
  | nil => exact consistent
  | cons node rest =>
      exact consistent_flowSteps
        (consistent_flow consistent (path.item "steps" position) node) path
        (position + 1) rest
termination_by structural steps

theorem consistent_flowBranches
    {scope : Scope} (consistent : scope.Consistent) (path : Path)
    (position : Nat) (branches : List Node) :
    ∀ branch ∈ (flowBranches scope path position branches).outcome,
      branch.Consistent := by
  cases branches with
  | nil => exact fun branch member => nomatch member
  | cons node rest =>
      exact List.forall_mem_cons.mpr
        ⟨consistent_flow consistent (path.item "branches" position) node,
          consistent_flowBranches consistent path (position + 1) rest⟩
termination_by structural branches

end

end Node

theorem Scope.consistent_behind (incoming : NameSet) (steps : List Node) :
    ((Scope.ofNames incoming).behind steps).Consistent := by
  rw [← Scope.outcome_flowSteps_eq_behind _ .document 0]
  refine Node.consistent_flowSteps ?_ .document 0 steps
  intro name lost
  exact (NameSet.not_mem_empty name lost).elim

/-- A race has left a name open behind some steps: one of them binds it when
all branches of its races count, yet all of them can be gone through without
it. -/
def LeftOpen (incoming : NameSet) (name : String) (steps : List Node) : Prop :=
  name ∉ incoming ∧ (∃ step ∈ steps, name ∈ step.must) ∧
    ∀ step ∈ steps, step.mayMiss name = true

/-- A fanout binds a name in every run after a race has left it open, in front
of the fanout or up to the end of one of its branches. -/
def Site.Rebinds (incoming : NameSet) (name : String) (site : Site) : Prop :=
  match site.node with
  | .fanout branches join =>
      (Node.fanout branches join).mayMiss name = false ∧
        (LeftOpen incoming name site.before ∨
          ∃ branch ∈ branches,
            LeftOpen incoming name (site.before ++ [branch]))
  | _ => False

instance (incoming : NameSet) (name : String) :
    DecidablePred (LeftOpen incoming name) :=
  fun _ => inferInstanceAs (Decidable (_ ∧ _ ∧ _))

instance (incoming : NameSet) (name : String) :
    DecidablePred (Site.Rebinds incoming name)
  | ⟨_, _, .fanout _ _⟩ => inferInstanceAs (Decidable (_ ∧ (_ ∨ _)))
  | ⟨_, _, .call _⟩ | ⟨_, _, .sequence _⟩ | ⟨_, _, .branch _ _ _⟩
  | ⟨_, _, .dispatch _ _ _⟩ =>
      isFalse id

/-- Where a name is not settled behind some steps, all of them can be gone
through without it. -/
def Missable (incoming : NameSet) (name : String) (steps : List Node) : Prop :=
  ¬ ((Scope.ofNames incoming).behind steps).Settles name →
    ∀ step ∈ steps, step.mayMiss name = true

namespace Missable

variable {incoming : NameSet} {name : String} {steps : List Node} {step : Node}

theorem concat
    (front : Missable incoming name steps)
    (last : ¬ ((Scope.ofNames incoming).behind (steps ++ [step])).Settles
      name → step.mayMiss name = true) :
    Missable incoming name (steps ++ [step]) := by
  intro unsettled
  have unsettledBefore :
      ¬ ((Scope.ofNames incoming).behind steps).Settles name := by
    intro settled
    rw [Scope.behind_append] at unsettled
    exact unsettled (settled.behind [step])
  exact List.forall_mem_append.mpr
    ⟨front unsettledBefore, List.forall_mem_singleton.mpr (last unsettled)⟩

theorem settles_of_mayMiss_eq_false
    (missable : Missable incoming name (steps ++ [step]))
    (bound : step.mayMiss name = false) :
    ((Scope.ofNames incoming).behind (steps ++ [step])).Settles name := by
  by_contra unsettled
  have missed := missable unsettled step (by simp)
  rw [bound] at missed
  cases missed

theorem leftOpen (missable : Missable incoming name steps)
    (lost : name ∈ ((Scope.ofNames incoming).behind steps).cancellable) :
    LeftOpen incoming name steps := by
  have notIncoming : name ∉ incoming :=
    fun isIncoming => ((Scope.settles_ofNames isIncoming).behind steps).2 lost
  have guaranteed := Scope.consistent_behind incoming steps name lost
  refine ⟨notIncoming, ?_, missable fun settled => settled.2 lost⟩
  exact (Scope.mem_guaranteed_behind.mp guaranteed).resolve_left notIncoming

end Missable

section Fanouts

variable {incoming : NameSet} {name : String} {before branches : List Node}

/-- The scopes at the ends of branches. -/
def endScopes (incoming : NameSet) (before branches : List Node) :
    List Scope :=
  branches.map fun branch =>
    (Scope.ofNames incoming).behind (before ++ [branch])

/-- One branch has settled the name, so only what was left open can keep it
open. -/
theorem leftOpen_of_waitForAll (front : Missable incoming name before)
    (each : ∀ branch ∈ branches, Missable incoming name (before ++ [branch]))
    (unsettled : ¬ (((Scope.ofNames incoming).behind before).joinFanout
      (endScopes incoming before branches) .waitForAll).Settles name)
    (bound : Node.mayMissEach name branches = false) :
    LeftOpen incoming name before ∨
      ∃ branch ∈ branches, LeftOpen incoming name (before ++ [branch]) := by
  obtain ⟨branch, member, binds⟩ := Node.mayMissEach_eq_false_iff.mp bound
  have settled := (each branch member).settles_of_mayMiss_eq_false binds
  have lost : name ∈ (((Scope.ofNames incoming).behind before).unionAll
      (endScopes incoming before branches)).cancellable := by
    by_contra kept
    refine unsettled ⟨?_, kept⟩
    rw [Scope.guaranteed_joinFanout, Scope.mem_guaranteed_unionAll]
    exact .inr ⟨_, List.mem_map_of_mem member, settled.1⟩
  rcases Scope.mem_cancellable_unionAll.mp lost with
    inFront | ⟨scope, isEnd, inBranch⟩
  · exact .inl (front.leftOpen inFront)
  · obtain ⟨other, isBranch, rfl⟩ := List.mem_map.mp isEnd
    exact .inr ⟨other, isBranch, (each other isBranch).leftOpen inBranch⟩

/-- All branches have settled the name, so it was left open in front of the
race. -/
theorem leftOpen_of_firstToFinish (front : Missable incoming name before)
    (each : ∀ branch ∈ branches, Missable incoming name (before ++ [branch]))
    (unsettled : ¬ (((Scope.ofNames incoming).behind before).joinFanout
      (endScopes incoming before branches) .firstToFinish).Settles name)
    (bound : (branches.isEmpty || Node.mayMissOne name branches) = false) :
    LeftOpen incoming name before := by
  obtain ⟨notEmpty, binds⟩ := Bool.or_eq_false_iff.mp bound
  have settled :
      ∀ scope ∈ endScopes incoming before branches, scope.Settles name := by
    intro scope isEnd
    obtain ⟨branch, member, rfl⟩ := List.mem_map.mp isEnd
    exact (each branch member).settles_of_mayMiss_eq_false
      (Node.mayMissOne_eq_false_iff.mp binds branch member)
  have someEnd : ∃ scope, scope ∈ endScopes incoming before branches := by
    cases branches with
    | nil => cases notEmpty
    | cons first rest => exact ⟨_, List.mem_cons_self⟩
  obtain ⟨scope, isEnd⟩ := someEnd
  apply front.leftOpen
  by_contra kept
  refine unsettled ⟨?_, ?_⟩
  · rw [Scope.guaranteed_joinFanout, Scope.mem_guaranteed_unionAll]
    exact .inr ⟨scope, isEnd, (settled scope isEnd).1⟩
  · -- neither the end of a branch nor the choice of the winner can take the
    -- name away
    rw [Scope.mem_cancellable_joinFanout_firstToFinish]
    rintro ((inFront | ⟨other, isOther, inBranch⟩)
        | ⟨_, _, other, isOther, missing⟩)
    · exact kept inFront
    · exact (settled other isOther).2 inBranch
    · exact missing (settled other isOther).1

/-- A fanout that cannot be gone through without a name has settled it, or has
bound what was left open. -/
theorem rebinds_of_not_settles
    {path : Path} {join : JoinPolicy} (front : Missable incoming name before)
    (each : ∀ branch ∈ branches, Missable incoming name (before ++ [branch]))
    (unsettled : ¬ ((Scope.ofNames incoming).behind
        (before ++ [.fanout branches join])).Settles name)
    (bound : (Node.fanout branches join).mayMiss name = false) :
    Site.Rebinds incoming name ⟨path, before, .fanout branches join⟩ := by
  rw [Scope.behind_fanout] at unsettled
  refine ⟨bound, ?_⟩
  cases join with
  | waitForAll => exact leftOpen_of_waitForAll front each unsettled bound
  | firstToFinish =>
      exact .inl (leftOpen_of_firstToFinish front each unsettled bound)

end Fanouts

namespace Node

variable {incoming : NameSet} {name : String}

mutual

/-- A tree behind which a name is not settled can be gone through without it,
unless a fanout in it binds what a race has left open. -/
theorem mayMiss_of_not_settles
    (path : Path) (before : List Node) (node : Node)
    (front : Missable incoming name before)
    (clear : ∀ site ∈ node.sites path before, ¬ site.Rebinds incoming name)
    (unsettled :
      ¬ ((Scope.ofNames incoming).behind (before ++ [node])).Settles name) :
    node.mayMiss name = true := by
  have here := clear _ (mem_sites_self path before node)
  unfold sites at clear
  have inside := (List.forall_mem_cons.mp clear).2
  cases node with
  | call invocation =>
      rw [mayMiss, bne_iff_ne]
      intro isTarget
      apply unsettled
      rw [Scope.behind_append]
      exact Scope.settles_behind_of_renews (List.mem_singleton_self _)
        (beq_iff_eq.mpr isTarget)
  | sequence steps =>
      rw [Scope.behind_sequence] at unsettled
      exact mayMissEach_of_not_settles path 0 before steps front inside
        unsettled
  | branch condition whenTrue otherwise =>
      cases otherwise with
      | none => rfl
      | some otherwise =>
          obtain ⟨inTrue, inFalse⟩ := List.forall_mem_append.mp inside
          rw [Scope.behind_branch] at unsettled
          rw [mayMiss, Bool.or_eq_true]
          -- two arms that settle the name would settle it behind the branch
          by_cases settled :
            ((Scope.ofNames incoming).behind (before ++ [whenTrue])).Settles
            name
          · right
            refine mayMiss_of_not_settles (.field path "if_false") before
              otherwise front inFalse ?_
            exact fun settledToo => unsettled (settled.joinArms settledToo)
          · left
            exact mayMiss_of_not_settles (.field path "if_true") before
              whenTrue front inTrue settled
  | fanout branches join =>
      have each := missable_branches path 0 before branches front inside
      by_contra bound
      exact here (rebinds_of_not_settles front each unsettled
          (Bool.eq_false_iff.mpr bound))
  | dispatch routes rules fallback => rfl
termination_by structural node

theorem mayMissEach_of_not_settles
    (path : Path) (position : Nat) (before steps : List Node)
    (front : Missable incoming name before)
    (clear : ∀ site ∈ sitesSteps path position before steps,
      ¬ site.Rebinds incoming name)
    (unsettled :
      ¬ ((Scope.ofNames incoming).behind (before ++ steps)).Settles name) :
    mayMissEach name steps = true := by
  cases steps with
  | nil => rfl
  | cons node rest =>
      obtain ⟨here, later⟩ := List.forall_mem_append.mp clear
      have last :=
        mayMiss_of_not_settles (path.item "steps" position) before node front
          here
      rw [List.append_cons] at unsettled
      have unsettledHere :
          ¬ ((Scope.ofNames incoming).behind (before ++ [node])).Settles
            name := by
        intro settled
        rw [Scope.behind_append] at unsettled
        exact unsettled (settled.behind rest)
      rw [mayMissEach, Bool.and_eq_true]
      exact ⟨last unsettledHere,
        mayMissEach_of_not_settles path (position + 1) (before ++ [node]) rest
          (front.concat last) later unsettled⟩
termination_by structural steps

theorem missable_branches
    (path : Path) (position : Nat) (before branches : List Node)
    (front : Missable incoming name before)
    (clear : ∀ site ∈ sitesBranches path position before branches,
      ¬ site.Rebinds incoming name) :
    ∀ branch ∈ branches, Missable incoming name (before ++ [branch]) := by
  cases branches with
  | nil => exact fun branch member => nomatch member
  | cons node rest =>
      obtain ⟨here, later⟩ := List.forall_mem_append.mp clear
      have last :=
        mayMiss_of_not_settles (path.item "branches" position) before node
          front here
      exact List.forall_mem_cons.mpr
        ⟨front.concat last,
          missable_branches path (position + 1) before rest front later⟩
termination_by structural branches

end

end Node

/-- Behind steps in which no fanout binds what a race has left open, a name is
settled or can have been missed all along. -/
theorem missable_of_not_rebinds
    {incoming : NameSet} {name : String} {steps : List Node}
    (clear : ∀ site ∈ (Node.sequence steps).sites .document [],
      ¬ site.Rebinds incoming name) :
    Missable incoming name steps := by
  intro unsettled
  rw [← Node.mayMissEach_iff]
  refine Node.mayMissEach_of_not_settles .document 0 [] steps ?_ ?_ unsettled
  · exact fun _ step member => nomatch member
  · exact fun site member => clear site (List.mem_cons_of_mem _ member)

end Workflow
