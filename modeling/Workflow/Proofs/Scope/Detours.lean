import Workflow.Proofs.Scope.Soundness

/-!
# Ways around a binding

Whether a name can be unbound behind a tree that binds it somewhere: an arm may
not be taken, a branch may lose its race, a route may not be chosen.  The
analysis takes no route for granted, not even a default.  The trees in which
that is literally so are the passable ones, and a name can be missed in a tree
exactly when a run through the passable tree ends without it.
-/

namespace Workflow

namespace Node

mutual

/-- The tree in which nothing has to be taken: the default of an orchestrator
becomes a last rule, one that asks nothing and may be passed by like the
others, and a race without branches is over at once. -/
def passable : Node → Node
  | .call invocation => .call invocation
  | .sequence steps => .sequence (passableList steps)
  | .branch condition whenTrue none =>
      .branch condition (passable whenTrue) none
  | .branch condition whenTrue (some otherwise) =>
      .branch condition (passable whenTrue) (some (passable otherwise))
  | .fanout branches join =>
      .fanout (passableList branches)
        (if branches.isEmpty then .waitForAll else join)
  | .dispatch routes rules fallback =>
      .dispatch (passableRoutes routes)
        (rules ++ fallback.toList.map (Rule.mk "")) none

def passableList : List Node → List Node
  | [] => []
  | node :: rest => passable node :: passableList rest

def passableRoutes : List (String × Node) → List (String × Node)
  | [] => []
  | (name, node) :: rest => (name, passable node) :: passableRoutes rest

end

mutual

/-- Whether a tree can be gone through without binding a name. -/
def mayMiss (name : String) : Node → Bool
  | .call invocation => invocation.output != some name
  | .sequence steps => mayMissEach name steps
  | .branch _ _ none => true
  | .branch _ whenTrue (some otherwise) =>
      mayMiss name whenTrue || mayMiss name otherwise
  | .fanout branches .waitForAll => mayMissEach name branches
  | .fanout branches .firstToFinish =>
      branches.isEmpty || mayMissOne name branches
  | .dispatch _ _ _ => true

def mayMissEach (name : String) : List Node → Bool
  | [] => true
  | node :: rest => mayMiss name node && mayMissEach name rest

def mayMissOne (name : String) : List Node → Bool
  | [] => false
  | node :: rest => mayMiss name node || mayMissOne name rest

end

variable {name : String}

theorem mayMissEach_iff {nodes : List Node} :
    mayMissEach name nodes = true ↔
      ∀ node ∈ nodes, node.mayMiss name = true := by
  induction nodes with
  | nil => simp [mayMissEach]
  | cons node rest induction => simp [mayMissEach, induction]

theorem mayMissEach_eq_false_iff {nodes : List Node} :
    mayMissEach name nodes = false ↔
      ∃ node ∈ nodes, node.mayMiss name = false := by
  induction nodes with
  | nil => simp [mayMissEach]
  | cons node rest induction =>
      simp only [mayMissEach, Bool.and_eq_false_iff, induction, List.mem_cons,
        exists_eq_or_imp]

theorem mayMissOne_eq_false_iff {nodes : List Node} :
    mayMissOne name nodes = false ↔
      ∀ node ∈ nodes, node.mayMiss name = false := by
  induction nodes with
  | nil => simp [mayMissOne]
  | cons node rest induction => simp [mayMissOne, induction]

theorem mem_passableRoutes
    {routes : List (String × Node)} {route : String} {node : Node}
    (member : (route, node) ∈ routes) :
    (route, node.passable) ∈ passableRoutes routes := by
  induction routes with
  | nil => cases member
  | cons first rest induction =>
      obtain ⟨firstName, firstNode⟩ := first
      rcases List.mem_cons.mp member with here | later
      · cases here
        exact List.mem_cons_self
      · exact List.mem_cons_of_mem _ (induction later)

end Node

theorem ToolCall.mem_binds
    {call : ToolCall} {before : NameSet} {name : String} :
    name ∈ call.binds before ↔ call.output = some name ∨ name ∈ before := by
  unfold ToolCall.binds
  cases call.output with
  | none => simp
  | some target => simp [eq_comm]

/-- A run that ends without a name. -/
def Trace.EndsWithout (trace : Trace) (name : String) : Prop :=
  ∃ after, trace.after = some after ∧ name ∉ after

/-- Branches of which none has started. -/
def Trace.unstarted (branches : List Node) : List Trace :=
  branches.map fun _ => ⟨[], none⟩

theorem RunBranches.unstarted
    (path : Path) (position : Nat) (branches : List Node) (before : NameSet) :
    RunBranches path position branches before (Trace.unstarted branches) := by
  induction branches generalizing position with
  | nil => exact .nil
  | cons node rest induction =>
      exact .cons .unstarted (induction (position + 1))

namespace Node

variable {name : String}

mutual

/-- A name that can be missed is missed by some run. -/
theorem exists_run_without (path : Path) (node : Node) {before : NameSet}
    (unbound : name ∉ before) (missed : node.mayMiss name = true) :
    ∃ trace, Run path node.passable before trace ∧ trace.EndsWithout name := by
  cases node with
  | call invocation =>
      refine ⟨_, .call invocation, _, rfl, ?_⟩
      rw [ToolCall.mem_binds, not_or]
      exact ⟨bne_iff_ne.mp missed, unbound⟩
  | sequence steps =>
      obtain ⟨trace, run, ends⟩ :=
        exists_runSteps_without path 0 steps unbound missed
      exact ⟨trace, .sequence run, ends⟩
  | branch condition whenTrue otherwise =>
      cases otherwise with
      | none =>
          exact ⟨_, .skipped condition whenTrue.passable, before, rfl, unbound⟩
      | some otherwise =>
          rw [mayMiss, Bool.or_eq_true] at missed
          rcases missed with inTrue | inFalse
          · obtain ⟨trace, run, ends⟩ :=
              exists_run_without (.field path "if_true") whenTrue unbound
                inTrue
            exact ⟨_, .whenTrue run, ends⟩
          · obtain ⟨trace, run, ends⟩ :=
              exists_run_without (.field path "if_false") otherwise unbound
                inFalse
            exact ⟨_, .otherwise run, ends⟩
  | fanout branches join =>
      cases branches with
      | nil => exact ⟨_, .waitForAll .nil, before, rfl, unbound⟩
      | cons first rest =>
          cases join with
          | waitForAll =>
              obtain ⟨traces, run, ends⟩ :=
                exists_runBranches_without path 0 (first :: rest) unbound
                  missed
              exact ⟨_, .waitForAll run, ends⟩
          | firstToFinish =>
              -- the branch that can miss the name wins, and only what it wrote
              -- is committed
              obtain ⟨traces, run, winner, among, after, ended, without⟩ :=
                exists_runBranches_winner path 0 (first :: rest) unbound missed
              refine ⟨_, .firstToFinish run among, before.union after, ?_, ?_⟩
              · rw [ended, Option.map_some]
              · rw [NameSet.mem_union, not_or]
                exact ⟨unbound, without⟩
  | dispatch routes rules fallback =>
      exact ⟨_, .unrouted _ _, before, rfl, unbound⟩
termination_by structural node

theorem exists_runSteps_without
    (path : Path) (position : Nat) (steps : List Node) {before : NameSet}
    (unbound : name ∉ before) (missed : mayMissEach name steps = true) :
    ∃ trace, RunSteps path position (passableList steps) before trace ∧
      trace.EndsWithout name := by
  cases steps with
  | nil => exact ⟨_, .nil, before, rfl, unbound⟩
  | cons node rest =>
      rw [mayMissEach, Bool.and_eq_true] at missed
      obtain ⟨⟨reads, _⟩, run, middle, rfl, without⟩ :=
        exists_run_without (path.item "steps" position) node unbound missed.1
      obtain ⟨trace, later, ends⟩ :=
        exists_runSteps_without path (position + 1) rest without missed.2
      exact ⟨_, .cons run later, ends⟩
termination_by structural steps

/-- All branches are gone through without the name. -/
theorem exists_runBranches_without
    (path : Path) (position : Nat) (branches : List Node) {before : NameSet}
    (unbound : name ∉ before) (missed : mayMissEach name branches = true) :
    ∃ traces, RunBranches path position (passableList branches) before traces ∧
      ∃ after, commitAll before traces = some after ∧ name ∉ after := by
  cases branches with
  | nil => exact ⟨[], .nil, before, rfl, unbound⟩
  | cons node rest =>
      rw [mayMissEach, Bool.and_eq_true] at missed
      obtain ⟨trace, run, written, ended, without⟩ :=
        exists_run_without (path.item "branches" position) node unbound
          missed.1
      obtain ⟨traces, later, others, committed, withoutOthers⟩ :=
        exists_runBranches_without path (position + 1) rest unbound missed.2
      refine ⟨trace :: traces, .cons run later, written.union others, ?_, ?_⟩
      · simp [commitAll, ended, committed]
      · rw [NameSet.mem_union, not_or]
        exact ⟨without, withoutOthers⟩
termination_by structural branches

/-- One branch is gone through without the name, before the others have
started. -/
theorem exists_runBranches_winner
    (path : Path) (position : Nat) (branches : List Node) {before : NameSet}
    (unbound : name ∉ before) (missed : mayMissOne name branches = true) :
    ∃ traces, RunBranches path position (passableList branches) before traces ∧
      ∃ winner ∈ traces, winner.EndsWithout name := by
  cases branches with
  | nil => cases missed
  | cons node rest =>
      rw [mayMissOne, Bool.or_eq_true] at missed
      rcases missed with here | later
      · obtain ⟨trace, run, ends⟩ :=
          exists_run_without (path.item "branches" position) node unbound here
        exact ⟨_, .cons run (.unstarted path (position + 1) _ before), trace,
          List.mem_cons_self, ends⟩
      · obtain ⟨traces, run, winner, among, ends⟩ :=
          exists_runBranches_winner path (position + 1) rest unbound later
        exact ⟨_, .cons .unstarted run, winner, List.mem_cons_of_mem _ among,
          ends⟩
termination_by structural branches

end

end Node

namespace Node

variable {name : String}

mutual

/-- A name that some run ends without can be missed. -/
theorem mayMiss_of_run
    {path : Path} {node : Node} {before : NameSet} {trace : Trace}
    (run : Run path node.passable before trace)
    (ends : trace.EndsWithout name) :
    node.mayMiss name = true := by
  obtain ⟨after, ended, without⟩ := ends
  cases node with
  | call invocation =>
      cases run with
      | call =>
          cases ended
          rw [ToolCall.mem_binds, not_or] at without
          exact bne_iff_ne.mpr without.1
      | unstarted => cases ended
      | brokenOff => cases ended
  | sequence steps =>
      cases run with
      | sequence run =>
          exact mayMissEach_of_runSteps run ⟨after, ended, without⟩
      | unstarted => cases ended
      | brokenOff => cases ended
  | branch condition whenTrue otherwise =>
      cases otherwise with
      | none => rfl
      | some otherwise =>
          rw [mayMiss, Bool.or_eq_true]
          cases run with
          | whenTrue run =>
              exact .inl (mayMiss_of_run run ⟨after, ended, without⟩)
          | otherwise run =>
              exact .inr (mayMiss_of_run run ⟨after, ended, without⟩)
          | unstarted => cases ended
          | brokenOff => cases ended
  | fanout branches join =>
      cases branches with
      | nil => cases join <;> rfl
      | cons first rest =>
          cases join with
          | waitForAll =>
              cases run with
              | waitForAll run =>
                  exact mayMissEach_of_runBranches run ended without
              | unstarted => cases ended
              | brokenOff => cases ended
          | firstToFinish =>
              cases run with
              | firstToFinish run among =>
                  obtain ⟨written, ofWinner, union⟩ :=
                    Option.map_eq_some_iff.mp ended
                  subst union
                  rw [NameSet.mem_union, not_or] at without
                  exact mayMissOne_of_runBranches run among
                    ⟨written, ofWinner, without.2⟩
              | unstarted => cases ended
              | brokenOff => cases ended
  | dispatch routes rules fallback => rfl
termination_by structural node

theorem mayMissEach_of_runSteps
    {path : Path} {position : Nat} {steps : List Node} {before : NameSet}
    {trace : Trace}
    (run : RunSteps path position (passableList steps) before trace)
    (ends : trace.EndsWithout name) :
    mayMissEach name steps = true := by
  cases steps with
  | nil => rfl
  | cons node rest =>
      rw [mayMissEach, Bool.and_eq_true]
      cases run with
      | cons first later =>
          -- later steps unbind nothing, so what is missing at the end was
          -- missing here
          refine ⟨mayMiss_of_run first ⟨_, rfl, ?_⟩,
            mayMissEach_of_runSteps later ends⟩
          obtain ⟨after, ended, without⟩ := ends
          exact fun bound => without (later.extends after ended name bound)
      | brokenOff first =>
          obtain ⟨after, ended, _⟩ := ends
          cases ended
termination_by structural steps

theorem mayMissEach_of_runBranches
    {path : Path} {position : Nat} {branches : List Node}
    {before after : NameSet} {traces : List Trace}
    (run : RunBranches path position (passableList branches) before traces)
    (committed : commitAll before traces = some after)
    (without : name ∉ after) :
    mayMissEach name branches = true := by
  cases branches with
  | nil => rfl
  | cons node rest =>
      rw [mayMissEach, Bool.and_eq_true]
      cases run with
      | cons first later =>
          obtain ⟨written, ended, others⟩ :=
            Option.bind_eq_some_iff.mp committed
          obtain ⟨joined, ofRest, union⟩ := Option.bind_eq_some_iff.mp others
          cases union
          rw [NameSet.mem_union, not_or] at without
          exact ⟨mayMiss_of_run first ⟨written, ended, without.1⟩,
            mayMissEach_of_runBranches later ofRest without.2⟩
termination_by structural branches

theorem mayMissOne_of_runBranches
    {path : Path} {position : Nat} {branches : List Node} {before : NameSet}
    {traces : List Trace} {winner : Trace}
    (run : RunBranches path position (passableList branches) before traces)
    (among : winner ∈ traces) (ends : winner.EndsWithout name) :
    mayMissOne name branches = true := by
  cases branches with
  | nil =>
      cases run
      cases among
  | cons node rest =>
      rw [mayMissOne, Bool.or_eq_true]
      cases run with
      | cons first later =>
          rcases List.mem_cons.mp among with here | inRest
          · exact .inl (mayMiss_of_run first (here ▸ ends))
          · exact .inr (mayMissOne_of_runBranches later inRest ends)
termination_by structural branches

end

/-- A name can be missed exactly when some run through the passable tree ends
without it. -/
theorem mayMiss_iff
    (path : Path) (node : Node) {before : NameSet} (unbound : name ∉ before) :
    node.mayMiss name = true ↔
      ∃ trace, Run path node.passable before trace ∧ trace.EndsWithout name :=
  ⟨exists_run_without path node unbound,
    fun ⟨_, run, ends⟩ => mayMiss_of_run run ends⟩

end Node

theorem Template.references_empty : Template.references "" = [] := by
  decide +kernel

/-- A rule that asks nothing looks nothing up. -/
theorem ruleReads_concat_silent
    (path : Path) (bound : NameSet) (position : Nat) (rules : List Rule)
    (target : String) :
    ruleReads path bound position (rules ++ [⟨"", target⟩]) =
      ruleReads path bound position rules := by
  induction rules generalizing position with
  | nil => simp [ruleReads, conditionReads, Template.references_empty, readsAt]
  | cons rule rest induction =>
      rw [List.cons_append, ruleReads, induction, ruleReads]

theorem RunBranches.ne_nil
    {path : Path} {position : Nat} {branches : List Node} {before : NameSet}
    {traces : List Trace} {trace : Trace}
    (run : RunBranches path position branches before traces)
    (among : trace ∈ traces) :
    branches.isEmpty = false := by
  cases run with
  | nil => cases among
  | cons => rfl

mutual

theorem Run.passable
    {path : Path} {node : Node} {before : NameSet} {trace : Trace}
    (run : Run path node before trace) :
    Run path node.passable before trace := by
  match run with
  | .call invocation => exact .call invocation
  | .sequence steps => exact .sequence steps.passable
  | @Run.whenTrue _ _ _ none _ _ arm => exact .whenTrue arm.passable
  | @Run.whenTrue _ _ _ (some otherwise) _ _ arm =>
      exact .whenTrue arm.passable
  | .otherwise arm => exact .otherwise arm.passable
  | .skipped condition whenTrue => exact .skipped condition whenTrue.passable
  | .waitForAll branches =>
      rw [Node.passable, ite_self]
      exact .waitForAll branches.passable
  | .firstToFinish branches among =>
      rw [Node.passable, branches.ne_nil among]
      exact .firstToFinish branches.passable among
  | .rule member target =>
      rw [Node.passable, List.append_assoc]
      exact .rule (Node.mem_passableRoutes member) target.passable
  | .fallback member target =>
      rw [← ruleReads_concat_silent]
      exact .rule (Node.mem_passableRoutes member) target.passable
  | .unrouted routes rules =>
      rw [Node.passable, Option.toList_none, List.map_nil, List.append_nil]
      exact .unrouted _ rules
  | .unstarted => exact .unstarted
  | .brokenOff whole started => exact .brokenOff whole.passable started

theorem RunSteps.passable
    {path : Path} {position : Nat} {steps : List Node} {before : NameSet}
    {trace : Trace} (run : RunSteps path position steps before trace) :
    RunSteps path position (Node.passableList steps) before trace := by
  match run with
  | .nil => exact .nil
  | .cons first rest => exact .cons first.passable rest.passable
  | .brokenOff first => exact .brokenOff first.passable

theorem RunBranches.passable
    {path : Path} {position : Nat} {branches : List Node} {before : NameSet}
    {traces : List Trace}
    (run : RunBranches path position branches before traces) :
    RunBranches path position (Node.passableList branches) before traces := by
  match run with
  | .nil => exact .nil
  | .cons first rest => exact .cons first.passable rest.passable

end

end Workflow
