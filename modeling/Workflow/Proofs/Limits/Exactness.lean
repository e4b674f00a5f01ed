import Workflow.Proofs.Document.Acceptance
import Workflow.Proofs.Limits.Walk
import Workflow.Proofs.Program.Structure

/-!
# Violations of the caps, one by one

The walk reports the depth at the first node that is too deep and never again.
So up to that node only lengths are reported, then comes its depth, and from
there on lengths again.  Wider caps find no more than narrower ones, so what
was accepted stays accepted.
-/

namespace Workflow

namespace Limits

/-- Each cap is at least as wide. -/
instance : LE Limits where
  le limits wider :=
    limits.maxSequenceLength ≤ wider.maxSequenceLength ∧
      limits.maxFanoutBranches ≤ wider.maxFanoutBranches ∧
      limits.maxDispatchRules ≤ wider.maxDispatchRules ∧
      limits.maxToolCalls ≤ wider.maxToolCalls ∧
      limits.maxDepth ≤ wider.maxDepth

variable {limits : Limits}

theorem firstDepthOnly_shallow {visits : List Visit}
    (shallow : ∀ visit ∈ visits, visit.depth ≤ limits.maxDepth)
    (rest : List Violation) :
    firstDepthOnly (visits.flatMap limits.excessesAt ++ rest) =
      visits.filterMap limits.overlong? ++ firstDepthOnly rest := by
  have same : visits.flatMap limits.excessesAt =
      visits.filterMap limits.overlong? := by
    rw [List.filterMap_eq_flatMap_toList]
    apply List.flatMap_congr
    intro visit member
    exact excessesAt_of_shallow (shallow visit member)
  rw [same, firstDepthOnly_append]
  intro violation member
  obtain ⟨visit, _, found⟩ := List.mem_filterMap.mp member
  exact isDepth_of_overlong? found

/-- From the first node that is too deep on, its depth is noted and then only
lengths. -/
theorem firstDepthOnly_deep {visits : List Visit}
    (deep : ∀ visit ∈ visits.head?, limits.maxDepth < visit.depth) :
    firstDepthOnly (visits.flatMap limits.excessesAt) =
      visits.head?.toList.map
          (fun visit => ⟨visit.path, .depth limits.maxDepth⟩) ++
        visits.filterMap limits.overlong? := by
  cases visits with
  | nil => rfl
  | cons visit rest =>
      have here : limits.maxDepth < visit.depth := deep visit rfl
      have later : ((limits.overlong? visit).toList ++
          rest.flatMap limits.excessesAt).filter (!·.excess.isDepth) =
            (visit :: rest).filterMap limits.overlong? := by
        rw [← filter_flatMap_excessesAt, List.flatMap_cons,
          excessesAt_of_deep here]
        rfl
      rw [List.flatMap_cons, excessesAt_of_deep here, ← later]
      rfl

theorem within_of_le
    {node : Node} {path : Path} {wider : Limits} (below : limits ≤ wider)
    (within : node.Within limits path) :
    node.Within wider path := by
  obtain ⟨steps, branches, rules, calls, depth⟩ := below
  exact {
    depth := fun visit member => (within.depth visit member).trans depth
    steps := fun visit member found same =>
      (within.steps visit member found same).trans steps
    branches := fun visit member found join same =>
      (within.branches visit member found join same).trans branches
    rules := fun visit member routes found fallback same =>
      (within.rules visit member routes found fallback same).trans rules
    calls := within.calls.trans calls }

end Limits

namespace Document

/-- Caps that a document keeps within do not show in what is found about it. -/
theorem accept_of_le
    {limits wider : Limits} (below : limits ≤ wider) {document : Value}
    {accepted : Accepted}
    (isAccepted : accept limits document = .ok accepted) :
    accept wider document = .ok accepted := by
  obtain ⟨isDocument, admissible⟩ := specDocument_of_accept isAccepted
  have read : (readSpec document).value = some accepted.spec :=
    (gives_readSpec.mpr ⟨_, isDocument, rfl⟩).value
  have narrow :
      limits.violations (.field .document "workflow") accepted.spec.workflow =
        [] := by
    rw [List.eq_nil_iff_forall_not_mem]
    intro violation member
    refine admissible violation.issue ?_ rfl
    exact List.mem_append_left _
      (List.mem_append_left _ (List.mem_map_of_mem member))
  have wide :
      wider.violations (.field .document "workflow") accepted.spec.workflow =
        [] :=
    Limits.violations_eq_nil.mpr
      (Limits.within_of_le below (Limits.violations_eq_nil.mp narrow))
  have sameIssues :
      accepted.spec.issues limits = accepted.spec.issues wider := by
    simp only [Spec.issues, narrow, wide]
  have same : inspect limits document = inspect wider document := by
    simp only [inspect, read, sameIssues]
  rw [← isAccepted, accept, accept, same]

end Document

namespace Limits

/-- The nodes before the first one that is too deep, and the others. -/
theorem exists_visits_eq (limits : Limits) (path : Path) (node : Node) :
    ∃ shallow deep, node.visits path 1 = shallow ++ deep ∧
      (∀ visit ∈ shallow, visit.depth ≤ limits.maxDepth) ∧
      ∀ visit ∈ deep.head?, limits.maxDepth < visit.depth := by
  have whole := List.takeWhile_append_dropWhile
    (p := fun visit : Visit => decide (visit.depth ≤ limits.maxDepth))
    (l := node.visits path 1)
  refine ⟨_, _, whole.symm, ?_, ?_⟩
  · intro visit member
    simpa using List.mem_takeWhile_imp member
  · intro visit first
    have stopped := List.head?_dropWhile_not
      (fun visit : Visit => decide (visit.depth ≤ limits.maxDepth))
      (node.visits path 1)
    rw [Option.mem_def.mp first] at stopped
    simpa using stopped

/-- The violations of a tree are, in the order of the walk, one for every
sequence, fanout and orchestrator that is too long, one for the depth at the
first node that is too deep if there is one, and at the end one if there are
too many tool calls.  The counter of the walk ends at the number of calls of
the tree, and its flag is set if some node is too deep.  So there are no
violations exactly when all caps hold, and a document that is accepted stays
accepted under wider caps. -/
theorem violations_exact (limits : Limits) (path : Path) (node : Node) :
    (∃ shallow deep, node.visits path 1 = shallow ++ deep ∧
      (∀ visit ∈ shallow, visit.depth ≤ limits.maxDepth) ∧
      (∀ visit ∈ deep.head?, limits.maxDepth < visit.depth) ∧
      limits.violations path node =
        shallow.filterMap limits.overlong? ++
          (deep.head?.toList.map
              (fun visit => ⟨visit.path, .depth limits.maxDepth⟩) ++
            deep.filterMap limits.overlong?) ++
          if limits.maxToolCalls < node.calls.length then
            [⟨path, .toolCalls node.calls.length limits.maxToolCalls⟩]
          else []) ∧
    (limits.visit path 1 node {}).toolCalls = node.calls.length ∧
    ((limits.visit path 1 node {}).depthReported = true ↔
      ∃ visit ∈ node.visits path 1, limits.maxDepth < visit.depth) ∧
    (node.visits path 1).filterMap Visit.call? = node.calls ∧
    (limits.violations path node = [] ↔ node.Within limits path) ∧
    ∀ wider : Limits, limits ≤ wider → ∀ document accepted,
      Document.accept limits document = .ok accepted →
        Document.accept wider document = .ok accepted := by
  have state : limits.visit path 1 node {} = _ := visit_eq path node
  refine ⟨?_, ?_, ?_, node.filterMap_call?_visits path 1, violations_eq_nil,
    ?_⟩
  · obtain ⟨shallow, deep, visited, within, beyond⟩ :=
      exists_visits_eq limits path node
    refine ⟨shallow, deep, visited, within, beyond, ?_⟩
    rw [violations_eq, visited, List.flatMap_append,
      firstDepthOnly_shallow within, firstDepthOnly_deep beyond, exceeding]
  · rw [state]
  · rw [state, List.any_eq_true]
    simp only [decide_eq_true_eq]
  · intro wider below document accepted isAccepted
    exact Document.accept_of_le below isAccepted

open Program in
theorem violations_exact_visit :
    testing ≤ {} ∧ ∃ accepted,
      Document.accept testing (.object (visitMembers
        (visitSteps [visitCall "enter", visitSteps [visitCall "leave"]]))) =
          .ok accepted ∧
      Document.accept {} (.object (visitMembers
        (visitSteps [visitCall "enter", visitSteps [visitCall "leave"]]))) =
          .ok accepted := by
  have wider : testing ≤ {} :=
    ⟨by decide, by decide, by decide, by decide, by decide⟩
  have enter :=
    nodeDocument_visitCall (by decide +kernel : isIdentifier "enter" = true)
  have leave :=
    nodeDocument_visitCall (by decide +kernel : isIdentifier "leave" = true)
  have inner := nodeDocument_visitSteps (.cons leave .nil) (by simp)
  have tree :=
    nodeDocument_visitSteps (.cons enter (.cons inner .nil)) (by simp)
  have admissible : (visitSpec (.sequence [.call ⟨"enter", [], none⟩,
      .sequence [.call ⟨"leave", [], none⟩]])).Admissible testing := by
    unfold Spec.Admissible
    decide +kernel
  obtain ⟨accepted, isAccepted, _⟩ := Document.exists_accept_iff.mpr
    ⟨⟨_, rfl, specMembers_visitMembers tree⟩, admissible⟩
  obtain ⟨-, -, -, -, -, stays⟩ :=
    violations_exact testing .document accepted.spec.workflow
  exact ⟨wider, accepted, isAccepted, stays {} wider _ accepted isAccepted⟩

example :
    violations ⟨1, 1, 1, 2, 2⟩ .document
      (.sequence
        [.fanout [.call ⟨"enter", [], none⟩, .call ⟨"wait", [], none⟩]
            .waitForAll,
          .call ⟨"leave", [], none⟩]) =
      [⟨.field .document "steps", .steps 2 1⟩,
        ⟨.field (Path.item .document "steps" 0) "branches", .branches 2 1⟩,
        ⟨(Path.item .document "steps" 0).item "branches" 0, .depth 2⟩,
        ⟨.document, .toolCalls 3 2⟩] := by
  decide

end Limits

end Workflow
