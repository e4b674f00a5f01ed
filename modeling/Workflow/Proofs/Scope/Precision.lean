import Workflow.Proofs.Scope.Retracing
import Workflow.Proofs.Scope.Settled
import Workflow.Proofs.Scope.SitePaths

/-!
# Precision of the warnings

The analysis warns of a name that a race may take away.  It does not warn of a
name that every run finds where it is looked up.  Two things are left out of
"every run": an orchestrator may be passed by, whether or not it has a default,
since what its routes bind is never taken for granted; and where a fanout has
bound a name that a race had left open, nothing is said about the warning.
-/

namespace Workflow

namespace Node

/-- Some run of a tree looks a name up at a place. -/
def Reaches
    (node : Node) (incoming : NameSet) (path place : Path) (name : String) :
    Prop :=
  ∃ trace, Run path node incoming trace ∧
    ∃ read ∈ trace.reads, read.path = place ∧ read.reference.root = name

/-- Every run of a tree that looks a name up at a place finds it bound. -/
def AlwaysFinds
    (node : Node) (incoming : NameSet) (path place : Path) (name : String) :
    Prop :=
  ∀ trace, Run path node incoming trace →
    ∀ read ∈ trace.reads,
      read.path = place → read.reference.root = name → name ∈ read.bound

theorem AlwaysFinds.of_passable
    {node : Node} {incoming : NameSet} {path place : Path} {name : String}
    (finds : node.passable.AlwaysFinds incoming path place name) :
    node.AlwaysFinds incoming path place name :=
  fun trace run => finds trace run.passable

end Node

section Inversion

variable {path : Path} {start : NameSet} {read : Read}

theorem Run.below_path
    {node : Node} {trace : Trace} (run : Run path node start trace)
    (reached : read ∈ trace.reads) :
    path.Below read.path := by
  obtain ⟨site, isSite, holds, _⟩ := run.retraces "" [] reached
  obtain ⟨key, _, below⟩ := holds.below
  exact (Node.below_of_mem_sites path [] node site isSite).trans
    ((Path.Below.self.field key).trans below)

/-- What a lookup says about the run it belongs to, for calls and sequences. -/
def Read.IsOf (read : Read) (path : Path) (start : NameSet) : Node → Prop
  | .call invocation => read ∈ invocation.reads path start
  | .sequence steps =>
      ∃ whole, RunSteps path 0 steps start whole ∧ read ∈ whole.reads
  | _ => True

theorem Run.isOf
    {node : Node} {trace : Trace} (run : Run path node start trace)
    (reached : read ∈ trace.reads) :
    read.IsOf path start node := by
  match run with
  | .call _ => exact reached
  | .sequence steps => exact ⟨trace, steps, reached⟩
  | .unstarted => cases reached
  | .brokenOff whole started => exact whole.isOf (started.subset reached)
  | .whenTrue _ | .otherwise _ | .skipped _ _ | .waitForAll _
  | .firstToFinish _ _ | .rule _ _
  | .fallback _ _ | .unrouted _ _ => trivial

theorem Run.bound_eq_of_call
    {invocation : ToolCall} {trace : Trace}
    (run : Run path (.call invocation) start trace)
    (reached : read ∈ trace.reads) :
    read.bound = start := by
  obtain ⟨param, _, inParam⟩ := List.mem_flatMap.mp (run.isOf reached)
  obtain ⟨reference, _, rfl⟩ := List.mem_map.mp inParam
  rfl

/-- A run of steps is a run of the first one as long as it looks up what stands
there, and behind that a run of the others. -/
theorem RunSteps.first_or_behind
    {position : Nat} {node : Node} {rest : List Node} {trace : Trace}
    (run : RunSteps path position (node :: rest) start trace)
    (reached : read ∈ trace.reads) :
    (∃ first,
      Run (path.item "steps" position) node start first ∧ read ∈ first.reads) ∨
      ∃ reads middle later,
        Run (path.item "steps" position) node start ⟨reads, some middle⟩ ∧
        RunSteps path (position + 1) rest middle later ∧
        read ∈ later.reads := by
  cases run with
  | cons first later =>
      rcases List.mem_append.mp reached with early | late
      · exact .inl ⟨_, first, early⟩
      · exact .inr ⟨_, _, _, first, later, late⟩
  | brokenOff first => exact .inl ⟨_, first, reached⟩

/-- What stands at a later step is looked up behind the first one. -/
theorem RunSteps.behind_of_below
    {position offset : Nat} {node : Node} {rest : List Node} {trace : Trace}
    (run : RunSteps path position (node :: rest) start trace)
    (reached : read ∈ trace.reads)
    (stands : (path.item "steps" offset).Below read.path)
    (later : position ≠ offset) :
    ∃ reads middle others,
      Run (path.item "steps" position) node start ⟨reads, some middle⟩ ∧
      RunSteps path (position + 1) rest middle others ∧
      read ∈ others.reads := by
  rcases run.first_or_behind reached with ⟨first, runFirst, inFirst⟩ | behind
  · exact absurd ((runFirst.below_path inFirst).item_unique stands) later
  · exact behind

/-- An orchestrator with a default is gone through on one of its routes. -/
theorem Run.exists_route
    {routes : List (String × Node)} {rules : List Rule} {fallback : String}
    {after : NameSet} {trace : Trace}
    (run : Run path (.dispatch routes rules (some fallback)) start trace)
    (ended : trace.after = some after) :
    ∃ route ∈ routes, ∃ taken,
      Run (.field (.field path "sub_workflows") route.1) route.2 start taken ∧
        taken.after = some after := by
  match run with
  | .rule isRoute target => exact ⟨_, isRoute, _, target, ended⟩
  | .fallback isRoute target => exact ⟨_, isRoute, _, target, ended⟩
  | .unstarted => cases ended
  | .brokenOff _ _ => cases ended

/-- A run through a tree that cannot be gone through without a name ends with
it. -/
theorem Run.mem_of_mayMiss_eq_false
    {node : Node} {name : String} {after : NameSet} {trace : Trace}
    (run : Run path node.passable start trace)
    (ended : trace.after = some after) (bound : node.mayMiss name = false) :
    name ∈ after := by
  by_contra without
  have missed := Node.mayMiss_of_run run ⟨after, ended, without⟩
  rw [bound] at missed
  cases missed

end Inversion

namespace Node

variable {node : Node} {incoming : NameSet} {path : Path}

/-- A warning is about a reference whose root the scope at that point has as
one that a race may take away. -/
theorem exists_site_of_mem_warnings {warning : ScopeWarning}
    (warned : warning ∈ (node.analyze incoming path).warnings) :
    ∃ site ∈ node.sites path [], ∃ occurrence ∈ site.occurrences,
      warning = ⟨occurrence.path, occurrence.reference.root⟩ ∧
        warning.name ∈
          ((Scope.ofNames incoming).behind site.before).cancellable := by
  have found := node.findings_flow (Scope.ofNames incoming) path []
  rw [Scope.behind, List.foldl_nil, occurrences_eq_flatMap_sites] at found
  have contested := ScopeReport.contested_of_mem_warningsOf warned
  rw [found] at contested
  obtain ⟨occurrence, isOccurrence, atOccurrence⟩ :=
    List.mem_flatMap.mp contested
  obtain ⟨site, isSite, inSite⟩ := List.mem_flatMap.mp isOccurrence
  obtain ⟨isWarning, lost⟩ := Scope.of_contested_mem_check atOccurrence
  rw [(Site.of_mem_occurrences inSite).2] at lost
  exact ⟨site, isSite, occurrence, inSite, isWarning, isWarning ▸ lost⟩

/-- A reference belongs to the site that holds its place. -/
theorem mem_occurrences_of_holds {occurrence : Occurrence} {site : Site}
    (distinct : ∀ site ∈ node.sites path [], site.node.HasDistinctRoutes)
    (stands : occurrence ∈ node.occurrences path [])
    (isSite : site ∈ node.sites path []) (holds : site.Holds occurrence.path) :
    occurrence ∈ site.occurrences := by
  rw [occurrences_eq_flatMap_sites] at stands
  obtain ⟨own, isOwn, inOwn⟩ := List.mem_flatMap.mp stands
  have same :=
    heldOnce_sites path [] node distinct own isOwn site isSite occurrence.path
      (Site.of_mem_occurrences inOwn).1 holds
  exact same ▸ inOwn

theorem not_mem_warnings_of_settles {occurrence : Occurrence}
    (distinct : ∀ site ∈ node.sites path [], site.node.HasDistinctRoutes)
    (stands : occurrence ∈ node.occurrences path [])
    (settled : ((Scope.ofNames incoming).behind occurrence.before).Settles
      occurrence.reference.root) :
    ⟨occurrence.path, occurrence.reference.root⟩ ∉
      (node.analyze incoming path).warnings := by
  intro warned
  obtain ⟨site, isSite, other, isOther, isWarning, lost⟩ :=
    exists_site_of_mem_warnings warned
  obtain ⟨samePath, _⟩ := ScopeWarning.mk.inj isWarning
  have inSite := mem_occurrences_of_holds distinct stands isSite
    (samePath ▸ (Site.of_mem_occurrences isOther).1)
  rw [(Site.of_mem_occurrences inSite).2] at settled
  exact settled.2 lost

/-- A name that every run finds where it is looked up, even if orchestrators
are passed by, can only be unsettled there if a fanout has bound what a race
had left open. -/
theorem settles_of_alwaysFinds
    {occurrence : Occurrence}
    (distinct : ∀ site ∈ node.sites path [], site.node.HasDistinctRoutes)
    (stands : occurrence ∈ node.occurrences path [])
    (reached :
      node.Reaches incoming path occurrence.path occurrence.reference.root)
    (finds : node.passable.AlwaysFinds incoming path occurrence.path
      occurrence.reference.root)
    (clear : ∀ site ∈ (Node.sequence occurrence.before).sites .document [],
      ¬ site.Rebinds incoming occurrence.reference.root) :
    ((Scope.ofNames incoming).behind occurrence.before).Settles
      occurrence.reference.root := by
  by_contra unsettled
  have missed := missable_of_not_rebinds clear unsettled
  have notIncoming : occurrence.reference.root ∉ incoming :=
    fun isIncoming =>
      unsettled ((Scope.settles_ofNames isIncoming).behind occurrence.before)
  -- the run that reaches the place comes by the node of the occurrence, and
  -- can be retraced
  obtain ⟨trace, run, read, isRead, atPlace, _⟩ := reached
  obtain ⟨site, isSite, holdsRead, inner, split, retrace⟩ :=
    run.retraces occurrence.reference.root [] isRead
  have inSite :=
    mem_occurrences_of_holds distinct stands isSite (atPlace ▸ holdsRead)
  rw [(Site.of_mem_occurrences inSite).2, split, List.nil_append] at missed
  obtain ⟨again, runAgain, looked⟩ := retrace incoming notIncoming missed
  obtain ⟨lookup, among, samePath, sameReference, unbound⟩ :=
    looked occurrence inSite
  exact unbound
    (finds again runAgain lookup among samePath (by rw [sameReference]))

/-- No warning is given of a name that every run finds where it is looked up,
where orchestrators may be passed by and no fanout in front binds what a race
has left open.  A name that a step in front binds again by calls, in both arms
of a branch if need be, is not warned of either. -/
theorem not_mem_warnings_of_alwaysFinds
    {occurrence : Occurrence}
    (distinct : ∀ site ∈ node.sites path [], site.node.HasDistinctRoutes)
    (stands : occurrence ∈ node.occurrences path [])
    (reached :
      node.Reaches incoming path occurrence.path occurrence.reference.root) :
    (node.passable.AlwaysFinds incoming path occurrence.path
      occurrence.reference.root →
      (∀ site ∈ (Node.sequence occurrence.before).sites .document [],
        ¬ site.Rebinds incoming occurrence.reference.root) →
      ⟨occurrence.path, occurrence.reference.root⟩ ∉
        (node.analyze incoming path).warnings) ∧
    ((∃ step ∈ occurrence.before,
        step.renews occurrence.reference.root = true) →
      ⟨occurrence.path, occurrence.reference.root⟩ ∉
        (node.analyze incoming path).warnings) := by
  constructor
  · intro finds clear
    exact not_mem_warnings_of_settles distinct stands
      (settles_of_alwaysFinds distinct stands reached finds clear)
  · intro renewed
    obtain ⟨step, member, renews⟩ := renewed
    exact not_mem_warnings_of_settles distinct stands
      (Scope.settles_behind_of_renews member renews)

end Node

/-- A race in which one of two branches binds a name. -/
def Node.openRace : Node :=
  .fanout [.call ⟨"a", [], some "v"⟩, .call ⟨"b", [], none⟩] .firstToFinish

/-- An orchestrator with nothing but a default, which binds the name again. -/
def Node.defaultRoute : Node :=
  .dispatch [("only", .call ⟨"c", [], some "v"⟩)] [] (some "only")

/-- A branch that binds the name again in both arms. -/
def Node.bothArms : Node :=
  .branch "" (.call ⟨"e", [], some "v"⟩) (some (.call ⟨"f", [], some "v"⟩))

def Node.useOfName : Node :=
  .call ⟨"d", [("p", .string "\x7b\x7bv\x7d\x7d")], none⟩

/-- Where a step uses the name. -/
def Path.ofUse (position : Nat) : Path :=
  .field (.field ((Path.named "workflow").item "steps" position) "params") "p"

theorem Path.below_ofUse (position : Nat) :
    ((Path.named "workflow").item "steps" position).Below (.ofUse position) :=
  (Path.Below.self.field "params").field "p"

theorem Run.openRace (path : Path) :
    Run path Node.openRace ∅ ⟨[], some (NameSet.ofList ["v"])⟩ := by
  have branches :
      RunBranches path 0 [.call ⟨"a", [], some "v"⟩, .call ⟨"b", [], none⟩] ∅
        [⟨[], some (NameSet.ofList ["v"])⟩, ⟨[], some ∅⟩] :=
    .cons (.call _) (.cons (.call _) .nil)
  exact .firstToFinish branches List.mem_cons_self

theorem Run.defaultRoute (path : Path) :
    Run path Node.defaultRoute (NameSet.ofList ["v"])
      ⟨[], some (NameSet.ofList ["v"])⟩ :=
  .fallback List.mem_cons_self (.call _)

theorem Run.bothArms (path : Path) :
    Run path Node.bothArms (NameSet.ofList ["v"])
      ⟨[], some (NameSet.ofList ["v"])⟩ :=
  .whenTrue (.call _)

theorem RunSteps.bound_eq_of_use
    {path : Path} {position : Nat} {start : NameSet} {trace : Trace}
    {read : Read} (run : RunSteps path position [Node.useOfName] start trace)
    (reached : read ∈ trace.reads) :
    read.bound = start := by
  rcases run.first_or_behind reached with
    ⟨_, use, inUse⟩ | ⟨_, _, _, _, done, inNone⟩
  · exact use.bound_eq_of_call inUse
  · cases done
    cases inNone

def Node.raceThenArms : Node :=
  .sequence [openRace, defaultRoute, bothArms, useOfName]

theorem Node.reaches_raceThenArms :
    Node.raceThenArms.Reaches ∅ (.named "workflow") (.ofUse 3) "v" := by
  refine ⟨_,
    .sequence (.cons (.openRace _)
        (.cons (.defaultRoute _)
          (.cons (.bothArms _) (.cons (.call _) .nil)))), ?_⟩
  exact ⟨⟨.ofUse 3, ⟨"v", []⟩, NameSet.ofList ["v"]⟩, List.mem_cons_self, rfl,
    rfl⟩

theorem Node.alwaysFinds_raceThenArms :
    Node.raceThenArms.passable.AlwaysFinds ∅ (.named "workflow") (.ofUse 3)
      "v" := by
  intro trace run read reached isPlace _
  have stands := isPlace ▸ Path.below_ofUse 3
  obtain ⟨whole, steps, inWhole⟩ := run.isOf reached
  obtain ⟨_, _, _, _, steps, inRest⟩ :=
    steps.behind_of_below inWhole stands (by decide)
  obtain ⟨_, _, _, _, steps, inLater⟩ :=
    steps.behind_of_below inRest stands (by decide)
  obtain ⟨_, after, _, arm, steps, inLast⟩ :=
    steps.behind_of_below inLater stands (by decide)
  have ofArms : Run _ Node.bothArms.passable _ _ := arm
  rw [steps.bound_eq_of_use inLast]
  exact ofArms.mem_of_mayMiss_eq_false rfl (by decide)

theorem Node.not_mem_warnings_of_alwaysFinds_raceThenArms :
    Node.raceThenArms.Reaches ∅ (.named "workflow") (.ofUse 3) "v" ∧
      Node.raceThenArms.AlwaysFinds ∅ (.named "workflow") (.ofUse 3) "v" ∧
      (∀ site ∈ (Node.sequence [.openRace, .defaultRoute, .bothArms]).sites
        .document [],
        ¬ site.Rebinds ∅ "v") ∧
      ⟨.ofUse 3, "v"⟩ ∉
        (Node.raceThenArms.analyze ∅ (.named "workflow")).warnings := by
  have found :
      (Value.string "\x7b\x7bv\x7d\x7d").references = .ok [⟨"v", []⟩] := by
    decide +kernel
  have stands :
      (⟨.ofUse 3, ⟨"v", []⟩, [openRace, defaultRoute, bothArms]⟩ :
        Occurrence) ∈
        Node.raceThenArms.occurrences (.named "workflow") [] := by
    simp [raceThenArms, useOfName, occurrences, occurrencesSteps,
      Occurrence.ofParams, found, Path.ofUse]
  have clear :
      ∀ site ∈ (Node.sequence [.openRace, .defaultRoute, .bothArms]).sites
        .document [], ¬ site.Rebinds ∅ "v" := by
    decide +kernel
  have warned :=
    Node.not_mem_warnings_of_alwaysFinds (by decide +kernel) stands
      Node.reaches_raceThenArms
  exact ⟨Node.reaches_raceThenArms, Node.alwaysFinds_raceThenArms.of_passable,
    clear, warned.1 Node.alwaysFinds_raceThenArms clear⟩

def Node.raceThenRoute : Node :=
  .sequence [openRace, defaultRoute, useOfName]

/-- The name is bound in every run where it is used, since the default binds
it, and yet there is a warning: what the routes of an orchestrator bind does
not count. -/
theorem Node.default_binds_yet_warned :
    Node.raceThenRoute.Reaches ∅ (.named "workflow") (.ofUse 2) "v" ∧
      Node.raceThenRoute.AlwaysFinds ∅ (.named "workflow") (.ofUse 2) "v" ∧
      ⟨.ofUse 2, "v"⟩ ∈
        (Node.raceThenRoute.analyze ∅ (.named "workflow")).warnings := by
  refine ⟨?_, ?_, by decide +kernel⟩
  · refine ⟨_, .sequence (.cons (.openRace _) (.cons (.defaultRoute _)
      (.cons (.call _) .nil))), ?_⟩
    exact ⟨⟨.ofUse 2, ⟨"v", []⟩, NameSet.ofList ["v"]⟩, List.mem_cons_self,
      rfl, rfl⟩
  · intro trace run read reached isPlace _
    have stands := isPlace ▸ Path.below_ofUse 2
    obtain ⟨whole, steps, inWhole⟩ := run.isOf reached
    obtain ⟨_, _, _, _, steps, inLater⟩ :=
      steps.behind_of_below inWhole stands (by decide)
    obtain ⟨_, after, _, routed, steps, inLast⟩ :=
      steps.behind_of_below inLater stands (by decide)
    obtain ⟨route, isRoute, taken, target, ended⟩ := routed.exists_route rfl
    obtain rfl := List.mem_singleton.mp isRoute
    rw [steps.bound_eq_of_use inLast]
    exact target.passable.mem_of_mayMiss_eq_false ended (by decide)

end Workflow
