import Workflow.Analysis.Scope
import Workflow.Proofs.Reference.Mentions

/-!
# Runs of a workflow

A run works through a tree in a context, of which only the names matter that
are bound in it.  Tools, conditions and races are not modelled: whatever they
could do, some run does.  What a run leaves behind is a trace, with every
reference that it has looked up and the names that were bound at that moment.

Branches that run side by side each see the context that they start from and
what they bind themselves.  Their bindings are committed afterwards: all of
them when the node waits for all, those of one branch in a race.  The other
branches of the race are looked at nevertheless, since they run as well.
-/

namespace Workflow

/-- A reference that was looked up: where it stands, and the names that were
bound at that moment. -/
structure Read where
  path : Path
  reference : Reference
  bound : NameSet

/-- What a run has looked up, and the names that are bound behind it.  There
are none behind a run that broke off. -/
structure Trace where
  reads : List Read
  after : Option NameSet

/-- Lookups of references that stand at one place. -/
def readsAt (path : Path) (bound : NameSet) (references : List Reference) :
    List Read :=
  references.map fun reference => ⟨path, reference, bound⟩

/-- The lookups of a condition. -/
def conditionReads (path : Path) (bound : NameSet) (condition : String) :
    List Read :=
  readsAt path bound (Template.references condition)

/-- The lookups of the conditions of rules, from a position on. -/
def ruleReads (path : Path) (bound : NameSet) (position : Nat) :
    List Rule → List Read
  | [] => []
  | rule :: rest =>
      conditionReads (.field (path.item "rules" position) "condition") bound
        rule.condition ++ ruleReads path bound (position + 1) rest

namespace ToolCall

/-- The lookups of the parameters of a call. -/
def reads (path : Path) (bound : NameSet) (call : ToolCall) : List Read :=
  call.params.flatMap fun param =>
    readsAt (.field (.field path "params") param.1) bound param.2.mentions

/-- The names that are bound behind a call. -/
def binds (bound : NameSet) (call : ToolCall) : NameSet :=
  match call.output with
  | some target => bound.insert target
  | none => bound

end ToolCall

/-- All that branches have bound, on top of the context they started from;
nothing when one of them broke off. -/
def commitAll (before : NameSet) : List Trace → Option NameSet
  | [] => some before
  | trace :: rest => do
      let written ← trace.after
      let others ← commitAll before rest
      return written.union others

mutual

/-- The runs of a tree that stands at a path, from the names that are bound in
front of it. -/
inductive Run : Path → Node → NameSet → Trace → Prop where
  | call {path : Path} {before : NameSet} (invocation : ToolCall) :
      Run path (.call invocation) before
        ⟨invocation.reads path before, some (invocation.binds before)⟩
  | sequence {path : Path} {steps : List Node} {before : NameSet}
      {trace : Trace} :
      RunSteps path 0 steps before trace →
      Run path (.sequence steps) before trace
  | whenTrue {path : Path} {condition : String} {whenTrue : Node}
      {otherwise : Option Node} {before : NameSet} {trace : Trace} :
      Run (.field path "if_true") whenTrue before trace →
      Run path (.branch condition whenTrue otherwise) before
        ⟨conditionReads (.field path "condition") before condition ++
            trace.reads, trace.after⟩
  | otherwise {path : Path} {condition : String} {whenTrue otherwise : Node}
      {before : NameSet} {trace : Trace} :
      Run (.field path "if_false") otherwise before trace →
      Run path (.branch condition whenTrue (some otherwise)) before
        ⟨conditionReads (.field path "condition") before condition ++
            trace.reads, trace.after⟩
  | skipped {path : Path} {before : NameSet} (condition : String)
      (whenTrue : Node) :
      Run path (.branch condition whenTrue none) before ⟨conditionReads
          (.field path "condition") before condition, some before⟩
  | waitForAll {path : Path} {branches : List Node} {before : NameSet}
      {traces : List Trace} :
      RunBranches path 0 branches before traces →
      Run path (.fanout branches .waitForAll) before
        ⟨traces.flatMap Trace.reads, commitAll before traces⟩
  | firstToFinish {path : Path} {branches : List Node} {before : NameSet}
      {traces : List Trace} {winner : Trace} :
      RunBranches path 0 branches before traces →
      winner ∈ traces →
      Run path (.fanout branches .firstToFinish) before
        ⟨traces.flatMap Trace.reads, winner.after.map before.union⟩
  | rule {path : Path} {routes : List (String × Node)}
      {earlier later : List Rule}
      {rule : Rule} {fallback : Option String} {target : Node}
      {before : NameSet}
      {trace : Trace} :
      (rule.target, target) ∈ routes →
      Run (.field (.field path "sub_workflows") rule.target) target before
        trace →
      Run path (.dispatch routes (earlier ++ rule :: later) fallback) before
        ⟨ruleReads path before 0 (earlier ++ [rule]) ++ trace.reads,
          trace.after⟩
  | fallback {path : Path} {routes : List (String × Node)} {rules : List Rule}
      {name : String} {target : Node} {before : NameSet} {trace : Trace} :
      (name, target) ∈ routes →
      Run (.field (.field path "sub_workflows") name) target before trace →
      Run path (.dispatch routes rules (some name)) before
        ⟨ruleReads path before 0 rules ++ trace.reads, trace.after⟩
  | unrouted {path : Path} {before : NameSet} (routes : List (String × Node))
      (rules : List Rule) :
      Run path (.dispatch routes rules none) before
        ⟨ruleReads path before 0 rules, some before⟩
  -- A tool may fail, a lookup may find nothing, and a branch that lost a race
  -- is cancelled: a run may break off in front of or behind any of its
  -- lookups.
  | unstarted {path : Path} {node : Node} {before : NameSet} :
      Run path node before ⟨[], none⟩
  | brokenOff {path : Path} {node : Node} {before : NameSet} {trace : Trace}
      {reads : List Read} :
      Run path node before trace →
      reads <+: trace.reads →
      Run path node before ⟨reads, none⟩

/-- The runs of steps from a position on, one after the other. -/
inductive RunSteps : Path → Nat → List Node → NameSet → Trace → Prop where
  | nil {path : Path} {position : Nat} {before : NameSet} :
      RunSteps path position [] before ⟨[], some before⟩
  | cons {path : Path} {position : Nat} {node : Node} {rest : List Node}
      {before middle : NameSet} {reads : List Read} {trace : Trace} :
      Run (path.item "steps" position) node before ⟨reads, some middle⟩ →
      RunSteps path (position + 1) rest middle trace →
      RunSteps path position (node :: rest) before
        ⟨reads ++ trace.reads, trace.after⟩
  | brokenOff {path : Path} {position : Nat} {node : Node} {rest : List Node}
      {before : NameSet} {reads : List Read} :
      Run (path.item "steps" position) node before ⟨reads, none⟩ →
      RunSteps path position (node :: rest) before ⟨reads, none⟩

/-- The runs of branches from a position on, all from the same context. -/
inductive RunBranches :
    Path → Nat → List Node → NameSet → List Trace → Prop where
  | nil {path : Path} {position : Nat} {before : NameSet} :
      RunBranches path position [] before []
  | cons {path : Path} {position : Nat} {node : Node} {rest : List Node}
      {before : NameSet} {trace : Trace} {traces : List Trace} :
      Run (path.item "branches" position) node before trace →
      RunBranches path (position + 1) rest before traces →
      RunBranches path position (node :: rest) before (trace :: traces)

end

end Workflow
