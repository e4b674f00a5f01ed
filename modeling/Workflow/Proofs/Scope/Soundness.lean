import Mathlib.Data.List.Forall2
import Workflow.Proofs.Scope.Basic
import Workflow.Proofs.Scope.Run

/-!
# Soundness of the scope analysis

A scope covers the names that are bound at a point of a run when every
guaranteed name that no race takes away is among them.  Every kind of node
keeps this relation between the scope and the run, and every lookup of a run
meets the analysis in a scope that covers it.  A tree without errors therefore
finds all it looks up, except for names that the analysis has warned of.
-/

namespace Workflow

namespace Node

mutual

/-- Trees that can be run: all strings of parameters are templates, and every
rule and every default of an orchestrator leads to one of its routes. -/
def Runnable : Node → Prop
  | .call invocation =>
      ∀ param ∈ invocation.params, ∃ references,
        param.2.references = .ok references
  | .sequence steps => RunnableList steps
  | .branch _ whenTrue none => Runnable whenTrue
  | .branch _ whenTrue (some otherwise) =>
      Runnable whenTrue ∧ Runnable otherwise
  | .fanout branches _ => RunnableList branches
  | .dispatch routes rules fallback =>
      RunnableRoutes routes ∧
        (∀ rule ∈ rules, rule.target ∈ routes.map Prod.fst) ∧
        ∀ name ∈ fallback, name ∈ routes.map Prod.fst

def RunnableList : List Node → Prop
  | [] => True
  | node :: rest => Runnable node ∧ RunnableList rest

def RunnableRoutes : List (String × Node) → Prop
  | [] => True
  | (_, node) :: rest => Runnable node ∧ RunnableRoutes rest

end

theorem RunnableRoutes.of_mem
    {routes : List (String × Node)} {route : String × Node}
    (runnable : RunnableRoutes routes) (member : route ∈ routes) :
    Runnable route.2 := by
  induction routes with
  | nil => cases member
  | cons first rest induction =>
      rcases List.mem_cons.mp member with here | later
      · exact here ▸ runnable.1
      · exact induction runnable.2 later

end Node

/-- Every guaranteed name that no race takes away is bound. -/
def Scope.Covers (scope : Scope) (bound : NameSet) : Prop :=
  ∀ name ∈ scope.guaranteed, name ∉ scope.cancellable → name ∈ bound

/-- The analysis has met a lookup in a scope that covers it, and what it had to
say about it is among its findings. -/
def Explained (findings : List ScopeFinding) (read : Read) : Prop :=
  ∃ scope : Scope, scope.Covers read.bound ∧
    ∀ finding ∈ scope.check read.path read.reference, finding ∈ findings

namespace Explained

theorem mono {findings more : List ScopeFinding} {read : Read}
    (explained : Explained findings read)
    (kept : ∀ finding ∈ findings, finding ∈ more) : Explained more read := by
  obtain ⟨scope, covers, found⟩ := explained
  exact ⟨scope, covers,
    fun finding member => kept finding (found finding member)⟩

theorem append_left
    {findings more : List ScopeFinding} {read : Read}
    (explained : Explained findings read) :
    Explained (findings ++ more) read :=
  explained.mono fun _ member => List.mem_append_left more member

theorem append_right
    {findings more : List ScopeFinding} {read : Read}
    (explained : Explained findings read) :
    Explained (more ++ findings) read :=
  explained.mono fun _ member => List.mem_append_right more member

end Explained

section Lookups

variable {scope : Scope} {bound : NameSet} {path : Path}

theorem explained_readsAt
    {references : List Reference} {read : Read} (covers : scope.Covers bound)
    (reached : read ∈ readsAt path bound references) :
    Explained (references.flatMap (scope.check path)) read := by
  obtain ⟨reference, member, rfl⟩ := List.mem_map.mp reached
  refine ⟨scope, covers, ?_⟩
  intro finding found
  exact List.mem_flatMap.mpr ⟨reference, member, found⟩

theorem explained_conditionReads
    {condition : String} {read : Read} (covers : scope.Covers bound)
    (reached : read ∈ conditionReads path bound condition) :
    Explained (scope.checkCondition path condition) read :=
  explained_readsAt covers reached

/-- The rules in front of the one that is followed are looked at as well, those
behind it are not. -/
theorem explained_ruleReads
    {position : Nat} {rules all : List Rule} {read : Read}
    (covers : scope.Covers bound) (first : rules <+: all)
    (reached : read ∈ ruleReads path bound position rules) :
    Explained (scope.checkRules path position all) read := by
  obtain ⟨later, rfl⟩ := first
  induction rules generalizing position with
  | nil => cases reached
  | cons rule rest induction =>
      rcases List.mem_append.mp reached with here | behind
      · exact (explained_conditionReads covers here).append_left
      · exact (induction behind).append_right

theorem explained_callReads {invocation : ToolCall} {read : Read}
    (runnable : (Node.call invocation).Runnable) (covers : scope.Covers bound)
    (reached : read ∈ invocation.reads path bound) :
    Explained (scope.checkParams (.field path "params") invocation.params)
      read := by
  obtain ⟨param, member, lookedUp⟩ := List.mem_flatMap.mp reached
  obtain ⟨references, templates⟩ := runnable param member
  rw [← Value.references_eq_ok templates] at lookedUp
  refine (explained_readsAt covers lookedUp).mono ?_
  intro finding found
  refine List.mem_flatMap.mpr ⟨param, member, ?_⟩
  rw [templates]
  exact found

end Lookups

/-- All names that were bound before are bound behind a finished run. -/
def Trace.Extends (trace : Trace) (before : NameSet) : Prop :=
  ∀ after, trace.after = some after → ∀ name ∈ before, name ∈ after

theorem subset_commitAll {before after : NameSet} {traces : List Trace}
    (committed : commitAll before traces = some after) :
    ∀ name ∈ before, name ∈ after := by
  induction traces generalizing after with
  | nil =>
      intro name member
      exact Option.some.inj committed ▸ member
  | cons trace rest induction =>
      obtain ⟨written, _, others⟩ := Option.bind_eq_some_iff.mp committed
      obtain ⟨joined, ofRest, union⟩ := Option.bind_eq_some_iff.mp others
      intro name member
      rw [← Option.some.inj union]
      exact NameSet.mem_union.mpr (.inr (induction ofRest name member))

theorem ToolCall.subset_binds (before : NameSet) (call : ToolCall) :
    ∀ name ∈ before, name ∈ call.binds before := by
  intro name member
  unfold ToolCall.binds
  split
  · exact NameSet.mem_insert.mpr (.inr member)
  · exact member

mutual

/-- A run never unbinds a name. -/
theorem Run.extends
    {path : Path} {node : Node} {before : NameSet} {trace : Trace}
    (run : Run path node before trace) :
    trace.Extends before := by
  match run with
  | .call invocation =>
      intro after finished
      exact Option.some.inj finished ▸ invocation.subset_binds before
  | .sequence steps => exact steps.extends
  | .whenTrue arm => exact fun after finished => arm.extends after finished
  | .otherwise arm => exact fun after finished => arm.extends after finished
  | .skipped .. =>
      exact fun after finished name member => Option.some.inj finished ▸ member
  | .waitForAll _ => exact fun after finished => subset_commitAll finished
  | .firstToFinish _ _ =>
      intro after finished name member
      obtain ⟨written, _, union⟩ := Option.map_eq_some_iff.mp finished
      exact union ▸ NameSet.mem_union.mpr (.inl member)
  | .rule _ target => exact fun after finished => target.extends after finished
  | .fallback _ target =>
      exact fun after finished => target.extends after finished
  | .unrouted .. =>
      exact fun after finished name member => Option.some.inj finished ▸ member
  | .unstarted => exact fun after finished => nomatch finished
  | .brokenOff _ _ => exact fun after finished => nomatch finished

theorem RunSteps.extends
    {path : Path} {position : Nat} {steps : List Node} {before : NameSet}
    {trace : Trace} (run : RunSteps path position steps before trace) :
    trace.Extends before := by
  match run with
  | .nil =>
      exact fun after finished name member => Option.some.inj finished ▸ member
  | .cons first rest =>
      intro after finished name member
      exact rest.extends after finished name (first.extends _ rfl name member)
  | .brokenOff _ => exact fun after finished => nomatch finished

end

namespace Scope.Covers

variable {scope : Scope} {before after : NameSet}

theorem ofNames
    {incoming bound : NameSet} (all : ∀ name ∈ incoming, name ∈ bound) :
    (Scope.ofNames incoming).Covers bound :=
  fun name guaranteed _ => all name guaranteed

theorem extend
    (covers : scope.Covers before) (grown : ∀ name ∈ before, name ∈ after) :
    scope.Covers after :=
  fun name guaranteed kept => grown name (covers name guaranteed kept)

theorem call
    (covers : scope.Covers before) (path : Path) (invocation : ToolCall) :
    ((Node.call invocation).flow scope path).outcome.Covers
      (invocation.binds before) := by
  unfold Node.flow ToolCall.binds
  cases invocation.output with
  | none => exact covers
  | some target =>
      intro name guaranteed kept
      rw [mem_guaranteed_bind] at guaranteed
      rw [mem_cancellable_bind] at kept
      rw [NameSet.mem_insert]
      by_cases same : name = target
      · exact .inl same
      · have old : name ∈ scope.guaranteed := guaranteed.resolve_left same
        exact .inr (covers name old fun lost => kept ⟨lost, same⟩)

theorem joinArms_left
    {whenTrue otherwise : Scope} (covers : whenTrue.Covers after) :
    (whenTrue.joinArms otherwise).Covers after := by
  intro name guaranteed kept
  rw [mem_guaranteed_joinArms] at guaranteed
  rw [mem_cancellable_joinArms] at kept
  exact covers name guaranteed.1 fun lost => kept ⟨.inl lost, guaranteed⟩

theorem joinArms_right
    {whenTrue otherwise : Scope} (covers : otherwise.Covers after) :
    (whenTrue.joinArms otherwise).Covers after := by
  intro name guaranteed kept
  rw [mem_guaranteed_joinArms] at guaranteed
  rw [mem_cancellable_joinArms] at kept
  exact covers name guaranteed.2 fun lost => kept ⟨.inr lost, guaranteed⟩

theorem skippable (covers : scope.Covers after) (arm : Scope) :
    (scope.skippable arm).Covers after :=
  covers

theorem foldl_skippable (covers : scope.Covers after) (routes : List Scope) :
    (routes.foldl Scope.skippable scope).Covers after := by
  intro name guaranteed kept
  rw [guaranteed_foldl_skippable] at guaranteed
  rw [cancellable_foldl_skippable] at kept
  exact covers name guaranteed kept

end Scope.Covers

/-- Branches have run: what the analysis says of each covers what it has
bound. -/
def CoverEach (scopes : List Scope) (traces : List Trace) : Prop :=
  List.Forall₂
    (fun scope trace =>
      ∀ written, trace.after = some written → scope.Covers written)
    scopes traces

namespace CoverEach

variable {scope : Scope} {scopes : List Scope} {before after : NameSet}
  {traces : List Trace}

theorem mem_commitAll (each : CoverEach scopes traces)
    (committed : commitAll before traces = some after) {branch : Scope}
    (member : branch ∈ scopes) : branch.Covers after := by
  induction each generalizing after with
  | nil => cases member
  | cons first _ induction =>
      obtain ⟨written, ofFirst, others⟩ := Option.bind_eq_some_iff.mp committed
      obtain ⟨joined, ofRest, union⟩ := Option.bind_eq_some_iff.mp others
      rw [← Option.some.inj union]
      rcases List.mem_cons.mp member with here | later
      · subst here
        exact (first written ofFirst).extend
          fun name bound => NameSet.mem_union.mpr (.inl bound)
      · exact (induction ofRest later).extend
          fun name bound => NameSet.mem_union.mpr (.inr bound)

theorem waitForAll
    (each : CoverEach scopes traces) (covers : scope.Covers before)
    (committed : commitAll before traces = some after) :
    (scope.joinFanout scopes .waitForAll).Covers after := by
  intro name guaranteed kept
  have keptEverywhere := mt Scope.mem_cancellable_unionAll.mpr kept
  rcases Scope.mem_guaranteed_unionAll.mp guaranteed with
    old | ⟨branch, member, new⟩
  · have bound := covers name old fun lost => keptEverywhere (.inl lost)
    exact subset_commitAll committed name bound
  · exact each.mem_commitAll committed member name new
      fun lost => keptEverywhere (.inr ⟨branch, member, lost⟩)

theorem scope_of_winner (each : CoverEach scopes traces) {winner : Trace}
    (member : winner ∈ traces) {written : NameSet}
    (finished : winner.after = some written) :
    ∃ branch ∈ scopes, branch.Covers written := by
  induction each with
  | nil => cases member
  | cons first _ induction =>
      rcases List.mem_cons.mp member with here | later
      · subst here
        exact ⟨_, List.mem_cons_self, first written finished⟩
      · obtain ⟨branch, among, covers⟩ := induction later
        exact ⟨branch, List.mem_cons_of_mem _ among, covers⟩

/-- Behind a race only those names are kept for sure that were there before, or
that whichever branch has won must have bound. -/
theorem firstToFinish
    (each : CoverEach scopes traces) (covers : scope.Covers before)
    {winner : Trace} (member : winner ∈ traces) {written : NameSet}
    (finished : winner.after = some written) :
    (scope.joinFanout scopes .firstToFinish).Covers
      (before.union written) := by
  obtain ⟨branch, among, branchCovers⟩ := each.scope_of_winner member finished
  intro name guaranteed kept
  rw [Scope.mem_cancellable_joinFanout_firstToFinish] at kept
  rw [Scope.guaranteed_joinFanout, Scope.mem_guaranteed_unionAll] at guaranteed
  rw [NameSet.mem_union]
  by_cases old : name ∈ scope.guaranteed
  · exact .inl (covers name old fun lost => kept (.inl (.inl lost)))
  · right
    have bound := guaranteed.resolve_left old
    have inWinner : name ∈ branch.guaranteed := by
      by_contra missing
      exact kept (.inr ⟨old, bound, branch, among, missing⟩)
    exact branchCovers name inWinner
      fun lost => kept (.inl (.inr ⟨branch, among, lost⟩))

end CoverEach

/-- A run agrees with the flow through a tree: its lookups are explained by the
findings, and the scope behind the tree covers what is bound there. -/
structure Agrees (through : Flow Scope) (trace : Trace) : Prop where
  reads : ∀ read ∈ trace.reads, Explained through.findings read
  covers : ∀ after, trace.after = some after → through.outcome.Covers after

structure AgreesEach (through : Flow (List Scope)) (traces : List Trace) :
    Prop where
  reads :
      ∀ trace ∈ traces, ∀ read ∈ trace.reads, Explained through.findings read
  covers : CoverEach through.outcome traces

namespace AgreesEach

theorem reads_flatMap {through : Flow (List Scope)} {traces : List Trace}
    (agrees : AgreesEach through traces) :
    ∀ read ∈ traces.flatMap Trace.reads, Explained through.findings read := by
  intro read reached
  obtain ⟨trace, member, among⟩ := List.mem_flatMap.mp reached
  exact agrees.reads trace member read among

end AgreesEach

theorem agrees_behindCondition
    {scope outcome : Scope} {path : Path} {before : NameSet}
    {condition : String} {findings : List ScopeFinding} {trace : Trace}
    (covers : scope.Covers before)
    (reads : ∀ read ∈ trace.reads, Explained findings read)
    (outcomeCovers : ∀ after,
      trace.after = some after → outcome.Covers after) :
    Agrees ⟨outcome, scope.checkCondition path condition ++ findings⟩
      ⟨conditionReads path before condition ++ trace.reads, trace.after⟩ where
  reads := by
    intro read reached
    rcases List.mem_append.mp reached with ofCondition | ofArm
    · exact (explained_conditionReads covers ofCondition).append_left
    · exact (reads read ofArm).append_right
  covers := outcomeCovers

theorem Node.flow_branch_some
    (scope : Scope) (path : Path) (condition : String)
    (whenTrue otherwise : Node) :
    (Node.branch condition whenTrue (some otherwise)).flow scope path =
      ⟨(whenTrue.flow scope (.field path "if_true")).outcome.joinArms
          (otherwise.flow scope (.field path "if_false")).outcome,
        scope.checkCondition (.field path "condition") condition ++
          ((whenTrue.flow scope (.field path "if_true")).findings ++
            (otherwise.flow scope (.field path "if_false")).findings)⟩ := by
  rw [← List.append_assoc]
  rfl

theorem Node.mem_findings_flowRoutes
    {scope : Scope} {path : Path} {routes : List (String × Node)}
    {route : String × Node} (member : route ∈ routes) :
    ∀ finding ∈ (route.2.flow scope (.field path route.1)).findings,
      finding ∈ (Node.flowRoutes scope path routes).findings := by
  intro finding found
  induction routes with
  | nil => cases member
  | cons first rest induction =>
      refine List.mem_append.mpr ?_
      rcases List.mem_cons.mp member with here | later
      · exact .inl (here ▸ found)
      · exact .inr (induction later)

theorem agrees_dispatch
    {scope : Scope} {path : Path} {before : NameSet}
    {routes : List (String × Node)} {rules all : List Rule}
    {fallback : Option String} {trace : Trace} {name : String} {target : Node}
    (covers : scope.Covers before) (first : rules <+: all)
    (member : (name, target) ∈ routes)
    (agrees : Agrees
      (target.flow scope (.field (.field path "sub_workflows") name)) trace)
    (grown : trace.Extends before) :
    Agrees ((Node.dispatch routes all fallback).flow scope path)
      ⟨ruleReads path before 0 rules ++ trace.reads, trace.after⟩ where
  reads := by
    intro read reached
    rcases List.mem_append.mp reached with ofRules | ofTarget
    · exact (explained_ruleReads covers first ofRules).append_left
    · exact ((agrees.reads read ofTarget).mono
        (Node.mem_findings_flowRoutes member)).append_right
  covers := by
    intro after finished
    exact (covers.extend (grown after finished)).foldl_skippable _

mutual

/-- Every run of a tree agrees with the flow through it, whatever scope covers
the names that are bound in front. -/
theorem Run.agrees
    {path : Path} {node : Node} {before : NameSet} {trace : Trace}
    (run : Run path node before trace) :
    ∀ scope : Scope, node.Runnable → scope.Covers before →
      Agrees (node.flow scope path) trace := by
  intro scope runnable covers
  match run with
  | .call invocation =>
      refine ⟨fun read reached =>
        explained_callReads runnable covers reached, ?_⟩
      intro after finished
      exact Option.some.inj finished ▸ covers.call path invocation
  | .sequence steps => exact steps.agrees scope runnable covers
  | @Run.whenTrue _ _ _ none _ _ arm =>
      have agrees := arm.agrees scope runnable covers
      refine agrees_behindCondition covers agrees.reads ?_
      intro after finished
      exact covers.extend (arm.extends after finished)
  | @Run.whenTrue _ _ _ (some otherwise) _ _ arm =>
      have agrees := arm.agrees scope runnable.1 covers
      rw [Node.flow_branch_some]
      refine agrees_behindCondition covers
        (fun read reached => (agrees.reads read reached).append_left) ?_
      intro after finished
      exact (agrees.covers after finished).joinArms_left
  | .otherwise arm =>
      have agrees := arm.agrees scope runnable.2 covers
      rw [Node.flow_branch_some]
      refine agrees_behindCondition covers
        (fun read reached => (agrees.reads read reached).append_right) ?_
      intro after finished
      exact (agrees.covers after finished).joinArms_right
  | .skipped condition whenTrue =>
      refine ⟨fun read reached =>
        (explained_conditionReads covers reached).append_left, ?_⟩
      intro after finished
      exact Option.some.inj finished ▸ covers
  | .waitForAll branches =>
      have agrees := branches.agrees scope runnable covers
      refine ⟨agrees.reads_flatMap, ?_⟩
      intro after finished
      exact agrees.covers.waitForAll covers finished
  | .firstToFinish branches member =>
      have agrees := branches.agrees scope runnable covers
      refine ⟨agrees.reads_flatMap, ?_⟩
      intro after finished
      -- what is bound behind a race is what was bound before and what the
      -- winner wrote
      obtain ⟨written, ofWinner, union⟩ := Option.map_eq_some_iff.mp finished
      exact union ▸ agrees.covers.firstToFinish covers member ofWinner
  | .rule member target =>
      have agrees := target.agrees scope (runnable.1.of_mem member) covers
      exact agrees_dispatch covers (by simp) member agrees target.extends
  | .fallback member target =>
      have agrees := target.agrees scope (runnable.1.of_mem member) covers
      exact agrees_dispatch covers List.prefix_rfl member agrees target.extends
  | .unrouted routes rules =>
      refine ⟨?_, ?_⟩
      · intro read reached
        exact (explained_ruleReads covers List.prefix_rfl reached).append_left
      · intro after finished
        exact Option.some.inj finished ▸ covers.foldl_skippable _
  | .unstarted =>
      exact ⟨fun read reached =>
        (nomatch reached), fun after finished => nomatch finished⟩
  | .brokenOff whole started =>
      -- nothing is bound behind it, and its lookups are the first ones of a
      -- whole run
      have agrees := whole.agrees scope runnable covers
      exact ⟨fun read reached => agrees.reads read (started.subset reached),
        fun after finished => nomatch finished⟩

theorem RunSteps.agrees {path : Path} {position : Nat} {steps : List Node}
    {before : NameSet} {trace : Trace}
    (run : RunSteps path position steps before trace) :
    ∀ scope : Scope, Node.RunnableList steps → scope.Covers before →
      Agrees (Node.flowSteps scope path position steps) trace := by
  intro scope runnable covers
  match run with
  | .nil =>
      exact ⟨fun read reached => (nomatch reached),
        fun after finished => Option.some.inj finished ▸ covers⟩
  | .cons first rest =>
      have ofFirst := first.agrees scope runnable.1 covers
      have ofRest := rest.agrees _ runnable.2 (ofFirst.covers _ rfl)
      refine ⟨?_, ofRest.covers⟩
      intro read reached
      rcases List.mem_append.mp reached with early | late
      · exact (ofFirst.reads read early).append_left
      · exact (ofRest.reads read late).append_right
  | .brokenOff first =>
      have ofFirst := first.agrees scope runnable.1 covers
      exact ⟨fun read reached => (ofFirst.reads read reached).append_left,
        fun after finished => nomatch finished⟩

theorem RunBranches.agrees
    {path : Path} {position : Nat} {branches : List Node} {before : NameSet}
    {traces : List Trace}
    (run : RunBranches path position branches before traces) :
    ∀ scope : Scope, Node.RunnableList branches → scope.Covers before →
      AgreesEach (Node.flowBranches scope path position branches) traces := by
  intro scope runnable covers
  match run with
  | .nil => exact ⟨fun trace member => (nomatch member), .nil⟩
  | .cons first rest =>
      have ofFirst := first.agrees scope runnable.1 covers
      have ofRest := rest.agrees scope runnable.2 covers
      refine ⟨?_, .cons ofFirst.covers ofRest.covers⟩
      intro trace member read reached
      rcases List.mem_cons.mp member with here | later
      · exact (ofFirst.reads read (here ▸ reached)).append_left
      · exact (ofRest.reads trace later read reached).append_right

end

/-- A lookup that found nothing, in a scope that covers it, is one that the
analysis has something to say about. -/
theorem Scope.Covers.check_ne_nil
    {scope : Scope} {read : Read} (covers : scope.Covers read.bound)
    (unbound : read.reference.root ∉ read.bound) :
    (∃ error, .unbound error ∈ scope.check read.path read.reference) ∨
      .contested ⟨read.path, read.reference.root⟩ ∈
        scope.check read.path read.reference := by
  unfold Scope.check
  by_cases guaranteed : read.reference.root ∈ scope.guaranteed
  · have lost : read.reference.root ∈ scope.cancellable := by
      by_contra kept
      exact unbound (covers _ guaranteed kept)
    right
    simp [guaranteed, lost]
  · left
    simp [guaranteed]

/-- When the analysis of a tree reports no error, every reference that a run
looks up is bound at that moment, unless the analysis has warned that its root
may be missing at this place. -/
theorem unbound_read_is_warned_of
    {node : Node} {incoming bound : NameSet} {path : Path} {trace : Trace}
    {read : Read} (runnable : node.Runnable)
    (started : ∀ name ∈ incoming, name ∈ bound)
    (noErrors : (node.analyze incoming path).errors = [])
    (run : Run path node bound trace) (reached : read ∈ trace.reads)
    (unbound : read.reference.root ∉ read.bound) :
    ∃ warning ∈ (node.analyze incoming path).warnings,
      warning.path.render = read.path.render ∧
      warning.name = read.reference.root := by
  have agrees := run.agrees _ runnable (Scope.Covers.ofNames started)
  obtain ⟨scope, covers, found⟩ := agrees.reads read reached
  rcases covers.check_ne_nil unbound with ⟨error, isError⟩ | isWarning
  · have reported := ScopeReport.mem_errorsOf.mpr (found _ isError)
    change error ∈ (node.analyze incoming path).errors at reported
    rw [noErrors] at reported
    cases reported
  · obtain ⟨warning, kept, same⟩ :=
      ScopeReport.exists_same_warningsOf (found _ isWarning)
    simp only [ScopeReport.sameWarning, Bool.and_eq_true, beq_iff_eq] at same
    exact ⟨warning, kept, same.1.symm, same.2.symm⟩

/-- Two tools race, and a third one uses the result of the first. -/
def Node.raceThenUse : Node :=
  .sequence [
    .fanout [.call ⟨"fast", [], some "quick"⟩, .call ⟨"slow", [], some "late"⟩]
      .firstToFinish,
    .call ⟨"use", [("value", .string "\x7b\x7bquick\x7d\x7d")], none⟩]

theorem Node.runnable_raceThenUse : Node.raceThenUse.Runnable := by
  refine ⟨⟨?_, ?_, trivial⟩, ?_, trivial⟩
  · exact fun param member => nomatch member
  · exact fun param member => nomatch member
  · intro param member
    obtain rfl := List.mem_singleton.mp member
    exact ⟨[⟨"quick", []⟩], by decide +kernel⟩

/-- The lookup of the third tool when the second one has won. -/
def Read.ofLostRace : Read :=
  ⟨.field (.field (.item (.named "workflow") "steps" 1) "params") "value",
    ⟨"quick", []⟩, NameSet.ofList ["late"]⟩

/-- The second branch of the race wins. -/
theorem Run.lostRace :
    Run (.named "workflow") Node.raceThenUse ∅
      ⟨[Read.ofLostRace], some (NameSet.ofList ["late"])⟩ := by
  have branches :
      RunBranches (.item (.named "workflow") "steps" 0) 0
        [.call ⟨"fast", [], some "quick"⟩, .call ⟨"slow", [], some "late"⟩] ∅
        [⟨[], some (NameSet.ofList ["quick"])⟩,
          ⟨[], some (NameSet.ofList ["late"])⟩] :=
    .cons (.call _) (.cons (.call _) .nil)
  have race :
      Run (.item (.named "workflow") "steps" 0)
        (.fanout
          [.call ⟨"fast", [], some "quick"⟩, .call ⟨"slow", [], some "late"⟩]
          .firstToFinish) ∅
        ⟨[], some (NameSet.ofList ["late"])⟩ :=
    .firstToFinish branches (List.mem_cons_of_mem _ List.mem_cons_self)
  have use :
      Run (.item (.named "workflow") "steps" 1)
        (.call ⟨"use", [("value", .string "\x7b\x7bquick\x7d\x7d")], none⟩)
        (NameSet.ofList ["late"])
        ⟨[Read.ofLostRace], some (NameSet.ofList ["late"])⟩ :=
    .call _
  exact .sequence (.cons race (.cons use .nil))

theorem unbound_read_is_warned_of_lostRace :
    Read.ofLostRace.reference.root ∉ Read.ofLostRace.bound ∧
      ∃ warning ∈ (Node.raceThenUse.analyze ∅ (.named "workflow")).warnings,
        warning.path.render = Read.ofLostRace.path.render ∧
          warning.name = Read.ofLostRace.reference.root := by
  have unbound : Read.ofLostRace.reference.root ∉ Read.ofLostRace.bound := by
    decide +kernel
  exact ⟨unbound, unbound_read_is_warned_of Node.runnable_raceThenUse
    (fun name member => member) (by decide +kernel) Run.lostRace
      List.mem_cons_self unbound⟩

end Workflow
