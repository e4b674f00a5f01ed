import Mathlib.Data.List.Basic
import Workflow.Proofs.Limits.Visits

/-!
# What the walk carries along

The walk goes through the nodes of a tree one by one, and at each of them it
does the same to its state.  After any number of nodes its counter stands at
the tool calls among them, its flag says whether one of them was too deep, and
its list has what they exceed, the depth at most once.  So the violations of a
tree can be read off its nodes.
-/

namespace Workflow.Limits

variable (limits : Limits)

/-- What the walk does at one node, before it goes on to the children. -/
def step (checker : Checker) (visit : Visit) : Checker :=
  let entered :=
    checker.measureDepth visit.path visit.depth limits.maxDepth
  match visit.node with
  | .call _ => entered.countCall
  | .sequence steps =>
      entered.measure (.field visit.path "steps") steps.length
        limits.maxSequenceLength .steps
  | .branch _ _ _ => entered
  | .fanout branches _ =>
      entered.measure (.field visit.path "branches") branches.length
        limits.maxFanoutBranches .branches
  | .dispatch _ rules _ =>
      entered.measure (.field visit.path "rules") rules.length
        limits.maxDispatchRules .rules

mutual

theorem visit_eq_foldl (path : Path) (depth : Nat) (node : Node)
    (checker : Checker) :
    limits.visit path depth node checker =
      (node.visits path depth).foldl limits.step checker := by
  cases node with
  | call invocation => rfl
  | sequence steps =>
      exact visitList_eq_foldl path "steps" 0 (depth + 1) steps _
  | branch condition whenTrue otherwise =>
      cases otherwise with
      | none =>
          exact visit_eq_foldl (.field path "if_true") (depth + 1) whenTrue _
      | some otherwise =>
          rw [Node.visits, List.foldl_cons, List.foldl_append,
            ← visit_eq_foldl (.field path "if_true") (depth + 1) whenTrue,
            ← visit_eq_foldl (.field path "if_false") (depth + 1) otherwise]
          rfl
  | fanout branches join =>
      exact visitList_eq_foldl path "branches" 0 (depth + 1) branches _
  | dispatch routes rules fallback =>
      exact visitRoutes_eq_foldl (.field path "sub_workflows") (depth + 1)
        routes _

theorem visitList_eq_foldl (path : Path) (key : String)
    (position depth : Nat) (nodes : List Node) (checker : Checker) :
    visitList limits path key position depth nodes checker =
      (Node.visitsList path key position depth nodes).foldl limits.step
        checker := by
  cases nodes with
  | nil => rfl
  | cons node rest =>
      rw [visitList, Node.visitsList, List.foldl_append,
        ← visit_eq_foldl (path.item key position) depth node,
        ← visitList_eq_foldl path key (position + 1) depth rest]

theorem visitRoutes_eq_foldl (path : Path) (depth : Nat)
    (routes : List (String × Node)) (checker : Checker) :
    visitRoutes limits path depth routes checker =
      (Node.visitsRoutes path depth routes).foldl limits.step checker := by
  cases routes with
  | nil => rfl
  | cons route rest =>
      obtain ⟨name, node⟩ := route
      rw [visitRoutes, Node.visitsRoutes, List.foldl_append,
        ← visit_eq_foldl (.field path name) depth node,
        ← visitRoutes_eq_foldl path depth rest]

end

variable {limits}

/-- What a walk adds to its list at some nodes, when it has reported a depth
before and when it has not. -/
def reports (limits : Limits) (reported : Bool) (visits : List Visit) :
    List Violation :=
  if reported then visits.filterMap limits.overlong?
  else firstDepthOnly (visits.flatMap limits.excessesAt)

theorem reports_singleton (reported : Bool) (visit : Visit) :
    limits.reports reported [visit] =
      (if limits.maxDepth < visit.depth ∧ reported = false then
        [⟨visit.path, .depth limits.maxDepth⟩] else []) ++
        (limits.overlong? visit).toList := by
  have alone : [visit].filterMap limits.overlong? =
      (limits.overlong? visit).toList := by
    rw [List.filterMap_eq_flatMap_toList, List.flatMap_singleton]
  have lengths : firstDepthOnly (limits.overlong? visit).toList =
      (limits.overlong? visit).toList := by
    have none : ∀ violation ∈ (limits.overlong? visit).toList,
        violation.excess.isDepth = false := by
      intro violation member
      exact isDepth_of_overlong? (Option.mem_toList.mp member)
    simpa [firstDepthOnly] using firstDepthOnly_append none []
  cases reported with
  | true => simp [reports, alone]
  | false =>
      rw [reports, if_neg Bool.false_ne_true, List.flatMap_singleton]
      rcases Nat.lt_or_ge limits.maxDepth visit.depth with deep | shallow
      · rw [excessesAt_of_deep deep, if_pos ⟨deep, rfl⟩, firstDepthOnly,
          filter_overlong?]
        rfl
      · have within : ¬(limits.maxDepth < visit.depth ∧ false = false) := by
          intro above
          exact Nat.not_lt.mpr shallow above.1
        rw [excessesAt_of_shallow shallow, if_neg within, lengths,
          List.nil_append]

theorem filter_flatMap_excessesAt (visits : List Visit) :
    (visits.flatMap limits.excessesAt).filter (!·.excess.isDepth) =
      visits.filterMap limits.overlong? := by
  rw [List.filter_flatMap, List.filterMap_eq_flatMap_toList]
  simp only [filter_excessesAt]

/-- From a node that is too deep on, no depth is reported. -/
theorem reports_cons (reported : Bool) (visit : Visit) (rest : List Visit) :
    limits.reports reported (visit :: rest) =
      limits.reports reported [visit] ++
        limits.reports
          (reported || decide (limits.maxDepth < visit.depth)) rest := by
  cases reported with
  | true =>
      have joined : visit :: rest = [visit] ++ rest := rfl
      rw [joined, reports, if_pos rfl, List.filterMap_append]
      rfl
  | false =>
      rw [reports_singleton, Bool.false_or, reports,
        if_neg Bool.false_ne_true, List.flatMap_cons]
      rcases Nat.lt_or_ge limits.maxDepth visit.depth with deep | shallow
      · rw [excessesAt_of_deep deep, if_pos ⟨deep, rfl⟩, List.cons_append,
          firstDepthOnly, List.filter_append, filter_overlong?,
          filter_flatMap_excessesAt, decide_eq_true deep]
        rfl
      · have within : ¬limits.maxDepth < visit.depth := Nat.not_lt.mpr shallow
        rw [excessesAt_of_shallow shallow, firstDepthOnly_append,
          decide_eq_false within, if_neg (by simp [within])]
        · rfl
        · intro violation member
          exact isDepth_of_overlong? (Option.mem_toList.mp member)

/-- What the walk does at its entry to a node. -/
theorem measureDepth_eq (checker : Checker) (path : Path) (depth cap : Nat) :
    checker.measureDepth path depth cap =
      { checker with
        depthReported := checker.depthReported || decide (cap < depth)
        violations := checker.violations ++
          if cap < depth ∧ checker.depthReported = false then
            [⟨path, .depth cap⟩] else [] } := by
  obtain ⟨calls, reported, violations⟩ := checker
  unfold Checker.measureDepth
  split
  · rename_i above
    simp [Checker.report, above.1]
  · rename_i within
    cases reported with
    | true => simp
    | false =>
        have shallow : ¬cap < depth := by simpa using within
        simp [shallow]

/-- The state of the walk behind one more node. -/
theorem step_eq (checker : Checker) (visit : Visit) :
    limits.step checker visit =
      { toolCalls := checker.toolCalls + visit.call?.toList.length
        depthReported := checker.depthReported ||
          decide (limits.maxDepth < visit.depth)
        violations := checker.violations ++
          limits.reports checker.depthReported [visit] } := by
  obtain ⟨path, depth, node⟩ := visit
  rw [reports_singleton, step, measureDepth_eq, ← List.append_assoc]
  cases node with
  | call invocation => simp [Visit.call?, overlong?, Checker.countCall]
  | branch condition whenTrue otherwise => simp [Visit.call?, overlong?]
  | sequence steps =>
      simp only [Visit.call?, overlong?, Checker.measure]
      split <;> simp [Checker.report]
  | fanout branches join =>
      simp only [Visit.call?, overlong?, Checker.measure]
      split <;> simp [Checker.report]
  | dispatch routes rules fallback =>
      simp only [Visit.call?, overlong?, Checker.measure]
      split <;> simp [Checker.report]

/-- The state of the walk behind any number of nodes. -/
theorem foldl_step (visits : List Visit) (checker : Checker) :
    visits.foldl limits.step checker =
      { toolCalls := checker.toolCalls +
          (visits.filterMap Visit.call?).length
        depthReported := checker.depthReported ||
          visits.any fun visit => limits.maxDepth < visit.depth
        violations := checker.violations ++
          limits.reports checker.depthReported visits } := by
  induction visits generalizing checker with
  | nil => simp [reports, firstDepthOnly]
  | cons visit rest induction =>
      have calls : ((visit :: rest).filterMap Visit.call?).length =
          visit.call?.toList.length +
            (rest.filterMap Visit.call?).length := by
        rw [List.filterMap_eq_flatMap_toList, List.flatMap_cons,
          List.length_append, ← List.filterMap_eq_flatMap_toList]
      rw [List.foldl_cons, induction, step_eq, calls, List.any_cons,
        reports_cons checker.depthReported visit rest]
      simp only [Nat.add_assoc, Bool.or_assoc, List.append_assoc]

/-- The state of the walk when it is through with a tree. -/
theorem visit_eq (path : Path) (node : Node) :
    limits.visit path 1 node {} =
      { toolCalls := node.calls.length
        depthReported := (node.visits path 1).any fun visit =>
          limits.maxDepth < visit.depth
        violations := firstDepthOnly
          ((node.visits path 1).flatMap limits.excessesAt) } := by
  rw [visit_eq_foldl, foldl_step, node.filterMap_call?_visits path 1,
    Nat.zero_add]
  rfl

/-- The violations of a tree: what its nodes exceed, the depth once, and then
the number of tool calls. -/
theorem violations_eq (path : Path) (node : Node) :
    limits.violations path node =
      firstDepthOnly ((node.visits path 1).flatMap limits.excessesAt) ++
        exceeding path node.calls.length limits.maxToolCalls .toolCalls := by
  rw [violations, visit_eq]
  unfold Checker.measure exceeding
  split
  · rfl
  · exact (List.append_nil _).symm

theorem violations_eq_nil {path : Path} {node : Node} :
    limits.violations path node = [] ↔ node.Within limits path := by
  simp only [violations_eq, List.append_eq_nil_iff, firstDepthOnly_eq_nil,
    List.flatMap_eq_nil_iff, excessesAt_eq_nil, overlong?_eq_none,
    exceeding_eq_nil]
  constructor
  · intro caps
    obtain ⟨each, calls⟩ := caps
    exact {
      depth := fun visit member => (each visit member).1
      steps := fun visit member => (each visit member).2.1
      branches := fun visit member => (each visit member).2.2.1
      rules := fun visit member => (each visit member).2.2.2
      calls := calls }
  · intro within
    refine ⟨?_, within.calls⟩
    intro visit member
    exact ⟨within.depth visit member, within.steps visit member,
      within.branches visit member, within.rules visit member⟩

end Workflow.Limits
