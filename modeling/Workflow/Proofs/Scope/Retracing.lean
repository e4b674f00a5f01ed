import Workflow.Proofs.Scope.Detours
import Workflow.Proofs.Scope.Sites

/-!
# Retracing a run

A run looks up what the nodes hold that it comes by.  It can be retraced up to
such a node without binding a name, as far as the name can be missed in the
steps in front of the node; everything the node holds is then looked up while
the name is unbound.
-/

namespace Workflow

/-- A reference is looked up while a name is unbound. -/
def LookedUpWithout
    (name : String) (reads : List Read) (occurrence : Occurrence) : Prop :=
  ∃ read ∈ reads,
    read.path = occurrence.path ∧ read.reference = occurrence.reference ∧
    name ∉ read.bound

theorem LookedUpWithout.mono
    {name : String} {reads more : List Read} {occurrence : Occurrence}
    (looked : LookedUpWithout name reads occurrence) (kept : reads ⊆ more) :
    LookedUpWithout name more occurrence := by
  obtain ⟨read, among, found⟩ := looked
  exact ⟨read, kept among, found⟩

/-- A site behind some steps can be reached without a name, from every context
without it, if the name can be missed in the steps that are still in front of
the site. -/
def Retraces (name : String) (front : List Node) (site : Site)
    (runs : NameSet → Trace → Prop) : Prop :=
  ∃ inner, site.before = front ++ inner ∧
    ∀ before, name ∉ before → (∀ step ∈ inner, step.mayMiss name = true) →
      ∃ trace, runs before trace ∧
        ∀ occurrence ∈ site.occurrences,
          LookedUpWithout name trace.reads occurrence

/-- Runs that take in those of a part reach what the part does. -/
theorem Retraces.within
    {name : String} {front : List Node} {site : Site}
    {part whole : NameSet → Trace → Prop}
    (retraces : Retraces name front site part)
    (within : ∀ before trace, part before trace →
      ∃ more, whole before more ∧ trace.reads ⊆ more.reads) :
    Retraces name front site whole := by
  obtain ⟨inner, split, reach⟩ := retraces
  refine ⟨inner, split, ?_⟩
  intro before unbound missed
  obtain ⟨trace, run, looked⟩ := reach before unbound missed
  obtain ⟨more, runWhole, kept⟩ := within before trace run
  exact ⟨more, runWhole,
    fun occurrence member => (looked occurrence member).mono kept⟩

section Lookups

variable {name : String} {before : NameSet} {path : Path} {front : List Node}
  {occurrence : Occurrence}

theorem lookedUp_condition {condition : String} (unbound : name ∉ before)
    (member : occurrence ∈ Occurrence.ofCondition path front condition) :
    LookedUpWithout name (conditionReads path before condition)
      occurrence := by
  obtain ⟨reference, isReference, rfl⟩ := List.mem_map.mp member
  exact ⟨_, List.mem_map_of_mem isReference, rfl, rfl, unbound⟩

theorem lookedUp_params
    {invocation : ToolCall} (unbound : name ∉ before)
    (member : occurrence ∈
      Occurrence.ofParams (.field path "params") front invocation.params) :
    LookedUpWithout name (invocation.reads path before) occurrence := by
  obtain ⟨param, isParam, inParam⟩ := List.mem_flatMap.mp member
  split at inParam
  · rename_i references found
    obtain ⟨reference, isReference, rfl⟩ := List.mem_map.mp inParam
    rw [Value.references_eq_ok found] at isReference
    refine ⟨⟨_, reference, before⟩, List.mem_flatMap.mpr ⟨param, isParam, ?_⟩,
      rfl, rfl, unbound⟩
    exact List.mem_map_of_mem isReference
  · cases inParam

theorem lookedUp_rules
    {position : Nat} {rules more : List Rule} (unbound : name ∉ before)
    (member : occurrence ∈ Occurrence.ofRules path front position rules) :
    LookedUpWithout name (ruleReads path before position (rules ++ more))
      occurrence := by
  induction rules generalizing position with
  | nil => cases member
  | cons rule rest induction =>
      rcases List.mem_append.mp member with here | later
      · exact (lookedUp_condition unbound here).mono
          (List.subset_append_left _ _)
      · exact (induction later).mono (List.subset_append_right _ _)

variable {read : Read}

theorem path_of_mem_conditionReads
    {condition : String}
    (reached : read ∈ conditionReads path before condition) :
    read.path = path := by
  obtain ⟨reference, _, rfl⟩ := List.mem_map.mp reached
  rfl

theorem path_of_mem_ruleReads {position : Nat} {rules : List Rule}
    (reached : read ∈ ruleReads path before position rules) :
    ∃ standing,
      read.path = .field (path.item "rules" standing) "condition" := by
  induction rules generalizing position with
  | nil => cases reached
  | cons rule rest induction =>
      rcases List.mem_append.mp reached with here | later
      · exact ⟨position, path_of_mem_conditionReads here⟩
      · exact induction later

theorem path_of_mem_callReads {invocation : ToolCall}
    (reached : read ∈ invocation.reads path before) :
    ∃ key, read.path = .field (.field path "params") key := by
  obtain ⟨param, _, inParam⟩ := List.mem_flatMap.mp reached
  obtain ⟨reference, _, rfl⟩ := List.mem_map.mp inParam
  exact ⟨param.1, rfl⟩

end Lookups

/-- A lookup stands at a site, and the site can be retraced. -/
def RetracesAt
    (name : String) (front : List Node) (place : Path) (sites : List Site)
    (runs : NameSet → Trace → Prop) : Prop :=
  ∃ site ∈ sites, site.Holds place ∧ Retraces name front site runs

theorem RetracesAt.within {name : String} {front : List Node} {place : Path}
    {sites more : List Site} {part whole : NameSet → Trace → Prop}
    (retraces : RetracesAt name front place sites part) (kept : sites ⊆ more)
    (within : ∀ before trace, part before trace →
      ∃ more, whole before more ∧ trace.reads ⊆ more.reads) :
    RetracesAt name front place more whole := by
  obtain ⟨site, member, holds, retraces⟩ := retraces
  exact ⟨site, kept member, holds, retraces.within within⟩

section Nodes

variable {path : Path} {place : Path} (name : String) (front : List Node)

theorem retraces_call {invocation : ToolCall}
    (stands : ∃ key, place = .field (.field path "params") key) :
    RetracesAt name front place ((Node.call invocation).sites path front)
      (Run path (Node.call invocation).passable) := by
  refine ⟨_, Node.mem_sites_self path front _, stands, [], by simp, ?_⟩
  intro before unbound _
  refine ⟨_, .call invocation, ?_⟩
  intro occurrence member
  exact lookedUp_params unbound member

/-- The condition of a branch is looked up before an arm is taken. -/
theorem retraces_condition
    {condition : String} {whenTrue : Node} {otherwise : Option Node}
    (stands : place = .field path "condition") :
    RetracesAt name front place
      ((Node.branch condition whenTrue otherwise).sites path front)
      (Run path (Node.branch condition whenTrue otherwise).passable) := by
  refine ⟨_, Node.mem_sites_self path front _, stands, [], by simp, ?_⟩
  intro before unbound _
  have looked : ∀ occurrence ∈ Occurrence.ofCondition (.field path "condition")
      front condition, LookedUpWithout name
      (conditionReads (.field path "condition") before condition ++ [])
      occurrence := by
    intro occurrence member
    rw [List.append_nil]
    exact lookedUp_condition unbound member
  cases otherwise with
  | none => exact ⟨_, .whenTrue .unstarted, looked⟩
  | some otherwise => exact ⟨_, .whenTrue .unstarted, looked⟩

/-- The conditions of all rules are looked up when none of them is followed. -/
theorem retraces_rules
    {routes : List (String × Node)} {rules : List Rule}
    {fallback : Option String}
    (stands : ∃ position,
      place = .field (path.item "rules" position) "condition") :
    RetracesAt name front place
      ((Node.dispatch routes rules fallback).sites path front)
      (Run path (Node.dispatch routes rules fallback).passable) := by
  refine ⟨_, Node.mem_sites_self path front _, stands, [], by simp, ?_⟩
  intro before unbound _
  refine ⟨_, .unrouted _ _, ?_⟩
  intro occurrence member
  exact lookedUp_rules unbound member

variable {name front}

/-- One more step in front of the site. -/
theorem RetracesAt.behind {position : Nat} {node : Node} {rest : List Node}
    (retraces : RetracesAt name (front ++ [node]) place
      (Node.sitesSteps path (position + 1) (front ++ [node]) rest)
      (RunSteps path (position + 1) (Node.passableList rest))) :
    RetracesAt name front place
      (Node.sitesSteps path position front (node :: rest))
      (RunSteps path position (Node.passableList (node :: rest))) := by
  obtain ⟨site, member, holds, inner, split, reach⟩ := retraces
  refine ⟨site, List.mem_append_right _ member, holds, node :: inner,
    by simp [split], ?_⟩
  intro before unbound missed
  obtain ⟨missedHere, missedLater⟩ := List.forall_mem_cons.mp missed
  obtain ⟨⟨reads, _⟩, run, middle, rfl, without⟩ :=
    (Node.mayMiss_iff (path.item "steps" position) node unbound).mp missedHere
  obtain ⟨trace, later, looked⟩ := reach middle without missedLater
  refine ⟨_, .cons run later, ?_⟩
  intro occurrence isOccurrence
  exact (looked occurrence isOccurrence).mono (List.subset_append_right _ _)

/-- The runs of branches, seen from one of them. -/
def RunsAmong
    (path : Path) (position : Nat) (branches : List Node) (before : NameSet)
    (trace : Trace) : Prop :=
  ∃ traces,
    RunBranches path position (Node.passableList branches) before traces ∧
    trace ∈ traces

theorem exists_run_fanout
    {branches : List Node} {before : NameSet} {trace : Trace}
    (join : JoinPolicy) (among : RunsAmong path 0 branches before trace) :
    ∃ more, Run path (Node.fanout branches join).passable before more ∧
      trace.reads ⊆ more.reads := by
  obtain ⟨traces, run, member⟩ := among
  have kept : trace.reads ⊆ traces.flatMap Trace.reads := by
    intro read isRead
    exact List.mem_flatMap.mpr ⟨trace, member, isRead⟩
  cases branches with
  | nil => exact ⟨_, .waitForAll run, kept⟩
  | cons first rest =>
      cases join with
      | waitForAll => exact ⟨_, .waitForAll run, kept⟩
      | firstToFinish => exact ⟨_, .firstToFinish run member, kept⟩

theorem exists_run_route
    {routes : List (String × Node)} {rules : List Rule}
    {fallback : Option String} {route : String} {target : Node}
    {before : NameSet} {trace : Trace}
    (leads : route ∈ rules.map Rule.target ++ fallback.toList)
    (isRoute : (route, target) ∈ routes)
    (run : Run (.field (.field path "sub_workflows") route) target.passable
      before trace) :
    ∃ more,
      Run path (Node.dispatch routes rules fallback).passable before more ∧
      trace.reads ⊆ more.reads := by
  have isTarget :
      route ∈ (rules ++ fallback.toList.map (Rule.mk "")).map Rule.target := by
    simpa [Function.comp_def] using leads
  obtain ⟨rule, isRule, rfl⟩ := List.mem_map.mp isTarget
  obtain ⟨earlier, later, split⟩ := List.append_of_mem isRule
  rw [Node.passable, split]
  exact ⟨_, .rule (Node.mem_passableRoutes isRoute) run,
    List.subset_append_right _ _⟩

theorem Node.sites_subset_sitesRoutes
    {routes : List (String × Node)} {route : String} {target : Node}
    (isRoute : (route, target) ∈ routes) :
    target.sites (.field path route) front ⊆
      Node.sitesRoutes path front routes := by
  induction routes with
  | nil => cases isRoute
  | cons first rest induction =>
      obtain ⟨firstName, firstNode⟩ := first
      rcases List.mem_cons.mp isRoute with here | later
      · cases here
        exact List.subset_append_left _ _
      · exact fun site member => List.mem_append_right _ (induction later
            member)

end Nodes

mutual

/-- Every lookup of a run stands at a site that can be retraced. -/
theorem Run.retraces
    {path : Path} {node : Node} {start : NameSet} {trace : Trace}
    (run : Run path node start trace) (name : String) (front : List Node)
    {read : Read} (reached : read ∈ trace.reads) :
    RetracesAt name front read.path (node.sites path front)
      (Run path node.passable) := by
  match run with
  | .call invocation =>
      exact retraces_call name front (path_of_mem_callReads reached)
  | .sequence steps =>
      refine (steps.retraces name front reached).within
        (List.subset_cons_self _ _) ?_
      intro before trace run
      exact ⟨trace, .sequence run, List.Subset.refl _⟩
  | @Run.whenTrue _ condition whenTrue otherwise _ _ arm =>
      rcases List.mem_append.mp reached with ofCondition | ofArm
      · exact retraces_condition name front
          (path_of_mem_conditionReads ofCondition)
      · cases otherwise with
        | none =>
            refine (arm.retraces name front ofArm).within
              (List.subset_cons_self _ _) ?_
            intro before trace run
            exact ⟨_, .whenTrue run, List.subset_append_right _ _⟩
        | some otherwise =>
            refine (arm.retraces name front ofArm).within
              (fun site member =>
                List.mem_cons_of_mem _ (List.mem_append_left _ member)) ?_
            intro before trace run
            exact ⟨_, .whenTrue run, List.subset_append_right _ _⟩
  | .otherwise arm =>
      rcases List.mem_append.mp reached with ofCondition | ofArm
      · exact retraces_condition name front
          (path_of_mem_conditionReads ofCondition)
      · refine (arm.retraces name front ofArm).within
          (fun site member =>
            List.mem_cons_of_mem _ (List.mem_append_right _ member)) ?_
        intro before trace run
        exact ⟨_, .otherwise run, List.subset_append_right _ _⟩
  | .skipped condition whenTrue =>
      exact retraces_condition name front (path_of_mem_conditionReads reached)
  | .waitForAll branches =>
      obtain ⟨trace, among, inTrace⟩ := List.mem_flatMap.mp reached
      refine (branches.retraces name front trace among read inTrace).within
        (List.subset_cons_self _ _) ?_
      intro before trace run
      exact exists_run_fanout .waitForAll run
  | .firstToFinish branches _ =>
      obtain ⟨trace, among, inTrace⟩ := List.mem_flatMap.mp reached
      refine (branches.retraces name front trace among read inTrace).within
        (List.subset_cons_self _ _) ?_
      intro before trace run
      exact exists_run_fanout .firstToFinish run
  | .rule isRoute target =>
      rcases List.mem_append.mp reached with ofRules | ofTarget
      · exact retraces_rules name front (path_of_mem_ruleReads ofRules)
      · refine (target.retraces name front ofTarget).within (fun site member =>
          List.mem_cons_of_mem _
            (Node.sites_subset_sitesRoutes isRoute member)) ?_
        intro before trace run
        exact exists_run_route (by simp) isRoute run
  | .fallback isRoute target =>
      rcases List.mem_append.mp reached with ofRules | ofTarget
      · exact retraces_rules name front (path_of_mem_ruleReads ofRules)
      · refine (target.retraces name front ofTarget).within (fun site member =>
          List.mem_cons_of_mem _
            (Node.sites_subset_sitesRoutes isRoute member)) ?_
        intro before trace run
        exact exists_run_route (by simp) isRoute run
  | .unrouted routes rules =>
      exact retraces_rules name front (path_of_mem_ruleReads reached)
  | .unstarted => cases reached
  | .brokenOff whole started =>
      exact whole.retraces name front (started.subset reached)

theorem RunSteps.retraces
    {path : Path} {position : Nat} {steps : List Node} {start : NameSet}
    {trace : Trace} (run : RunSteps path position steps start trace)
    (name : String) (front : List Node) {read : Read}
    (reached : read ∈ trace.reads) :
    RetracesAt name front read.path (Node.sitesSteps path position front steps)
      (RunSteps path position (Node.passableList steps)) := by
  match run with
  | .nil => cases reached
  | .cons first rest =>
      rcases List.mem_append.mp reached with early | late
      · -- the retraced run breaks off behind the lookup, so the later steps
        -- do not matter
        refine (first.retraces name front early).within
          (List.subset_append_left _ _) ?_
        intro before trace run
        exact ⟨⟨trace.reads, none⟩,
          .brokenOff (.brokenOff run List.prefix_rfl), List.Subset.refl _⟩
      · exact (rest.retraces name (front ++ [_]) late).behind
  | .brokenOff first =>
      refine (first.retraces name front reached).within
        (List.subset_append_left _ _) ?_
      intro before trace run
      exact ⟨⟨trace.reads, none⟩, .brokenOff (.brokenOff run List.prefix_rfl),
        List.Subset.refl _⟩

theorem RunBranches.retraces
    {path : Path} {position : Nat} {branches : List Node} {start : NameSet}
    {traces : List Trace}
    (run : RunBranches path position branches start traces) (name : String)
    (front : List Node) :
    ∀ trace ∈ traces, ∀ read ∈ trace.reads,
      RetracesAt name front read.path
        (Node.sitesBranches path position front branches)
        (RunsAmong path position branches) := by
  intro trace among read reached
  match run with
  | .nil => cases among
  | .cons first rest =>
      rcases List.mem_cons.mp among with here | later
      · refine (first.retraces name front (here ▸ reached)).within
          (List.subset_append_left _ _) ?_
        intro before trace run
        exact ⟨trace, ⟨_, .cons run (.unstarted path (position + 1) _ before),
          List.mem_cons_self⟩, List.Subset.refl _⟩
      · refine (rest.retraces name front trace later read reached).within
          (List.subset_append_right _ _) ?_
        intro before trace run
        obtain ⟨traces, others, member⟩ := run
        exact ⟨trace,
          ⟨_, .cons .unstarted others, List.mem_cons_of_mem _ member⟩,
          List.Subset.refl _⟩

end

end Workflow
