import Workflow.Analysis.Limits

/-!
# The nodes that a walk visits

Nodes of a tree in the order of a walk, each with its path and its depth.  The
caps are stated node by node, and what a node exceeds is a list of its own.  A
depth that is too great counts only once in a walk, where it is first exceeded.
-/

namespace Workflow

/-- A node on the way of a walk; the root of the tree has depth one. -/
structure Visit where
  path : Path
  depth : Nat
  node : Node

/-- The tool call that a visited node is. -/
def Visit.call? (visit : Visit) : Option ToolCall :=
  match visit.node with
  | .call invocation => some invocation
  | _ => none

namespace Node

mutual

/-- The nodes of a tree, each before its children. -/
def visits (path : Path) (depth : Nat) (node : Node) : List Visit :=
  ⟨path, depth, node⟩ ::
    match node with
    | .call _ => []
    | .sequence steps => visitsList path "steps" 0 (depth + 1) steps
    | .branch _ whenTrue none =>
        visits (.field path "if_true") (depth + 1) whenTrue
    | .branch _ whenTrue (some otherwise) =>
        visits (.field path "if_true") (depth + 1) whenTrue ++
          visits (.field path "if_false") (depth + 1) otherwise
    | .fanout branches _ => visitsList path "branches" 0 (depth + 1) branches
    | .dispatch routes _ _ =>
        visitsRoutes (.field path "sub_workflows") (depth + 1) routes

def visitsList (path : Path) (key : String) (position depth : Nat) :
    List Node → List Visit
  | [] => []
  | node :: rest =>
      visits (path.item key position) depth node ++
        visitsList path key (position + 1) depth rest

def visitsRoutes (path : Path) (depth : Nat) :
    List (String × Node) → List Visit
  | [] => []
  | (name, node) :: rest =>
      visits (.field path name) depth node ++ visitsRoutes path depth rest

end

mutual

/-- The walk comes by every tool call of a tree, in the order of the calls. -/
theorem filterMap_call?_visits (path : Path) (depth : Nat) (node : Node) :
    (node.visits path depth).filterMap Visit.call? = node.calls := by
  cases node with
  | call invocation => rfl
  | sequence steps =>
      exact filterMap_call?_visitsList path "steps" 0 (depth + 1) steps
  | branch condition whenTrue otherwise =>
      have first :=
        filterMap_call?_visits (.field path "if_true") (depth + 1) whenTrue
      cases otherwise with
      | none => exact first
      | some otherwise =>
          have second := filterMap_call?_visits (.field path "if_false")
            (depth + 1) otherwise
          rw [visits, List.filterMap_cons_none rfl, List.filterMap_append,
            first, second, calls]
  | fanout branches join =>
      exact filterMap_call?_visitsList path "branches" 0 (depth + 1) branches
  | dispatch routes rules fallback =>
      exact filterMap_call?_visitsRoutes (.field path "sub_workflows")
        (depth + 1) routes

theorem filterMap_call?_visitsList (path : Path) (key : String)
    (position depth : Nat) (nodes : List Node) :
    (visitsList path key position depth nodes).filterMap Visit.call? =
      callsList nodes := by
  cases nodes with
  | nil => rfl
  | cons node rest =>
      rw [visitsList, List.filterMap_append, callsList,
        filterMap_call?_visits (path.item key position) depth node,
        filterMap_call?_visitsList path key (position + 1) depth rest]

theorem filterMap_call?_visitsRoutes (path : Path) (depth : Nat)
    (routes : List (String × Node)) :
    (visitsRoutes path depth routes).filterMap Visit.call? =
      callsRoutes routes := by
  cases routes with
  | nil => rfl
  | cons route rest =>
      obtain ⟨name, node⟩ := route
      rw [visitsRoutes, List.filterMap_append, callsRoutes,
        filterMap_call?_visits (.field path name) depth node,
        filterMap_call?_visitsRoutes path depth rest]

end

/-- All five caps hold: at every node those on depth, steps, branches and
rules, and for the tree as a whole the one on tool calls. -/
structure Within (node : Node) (limits : Limits) (path : Path) : Prop where
  depth : ∀ visit ∈ node.visits path 1, visit.depth ≤ limits.maxDepth
  steps : ∀ visit ∈ node.visits path 1, ∀ steps,
    visit.node = .sequence steps → steps.length ≤ limits.maxSequenceLength
  branches : ∀ visit ∈ node.visits path 1, ∀ branches join,
    visit.node = .fanout branches join →
      branches.length ≤ limits.maxFanoutBranches
  rules : ∀ visit ∈ node.visits path 1, ∀ routes rules fallback,
    visit.node = .dispatch routes rules fallback →
      rules.length ≤ limits.maxDispatchRules
  calls : node.calls.length ≤ limits.maxToolCalls

end Node

/-- Whether the excess is one of depth. -/
def Excess.isDepth : Excess → Bool
  | .depth _ => true
  | _ => false

namespace Limits

def exceeding (path : Path) (count cap : Nat) (excess : Nat → Nat → Excess) :
    List Violation :=
  if cap < count then [⟨path, excess count cap⟩] else []

/-- The excess of depth of a single node. -/
def depthViolations (limits : Limits) (path : Path) (depth : Nat) :
    List Violation :=
  exceeding path depth limits.maxDepth fun _ cap => .depth cap

/-- What a node has too many of: steps, branches or rules. -/
def overlong? (limits : Limits) (visit : Visit) : Option Violation :=
  match visit.node with
  | .sequence steps =>
      if limits.maxSequenceLength < steps.length then
        some ⟨.field visit.path "steps",
          .steps steps.length limits.maxSequenceLength⟩
      else none
  | .fanout branches _ =>
      if limits.maxFanoutBranches < branches.length then
        some ⟨.field visit.path "branches",
          .branches branches.length limits.maxFanoutBranches⟩
      else none
  | .dispatch _ rules _ =>
      if limits.maxDispatchRules < rules.length then
        some ⟨.field visit.path "rules",
          .rules rules.length limits.maxDispatchRules⟩
      else none
  | .call _ => none
  | .branch _ _ _ => none

/-- What a single node exceeds, its depth first. -/
def excessesAt (limits : Limits) (visit : Visit) : List Violation :=
  limits.depthViolations visit.path visit.depth ++
    (limits.overlong? visit).toList

/-- Drops every excess of depth but the first. -/
def firstDepthOnly : List Violation → List Violation
  | [] => []
  | violation :: rest =>
      if violation.excess.isDepth then
        violation :: rest.filter (!·.excess.isDepth)
      else violation :: firstDepthOnly rest

variable {limits : Limits}

theorem exceeding_eq_nil {path : Path} {count cap : Nat}
    {excess : Nat → Nat → Excess} :
    exceeding path count cap excess = [] ↔ count ≤ cap := by
  simp [exceeding]

theorem mem_exceeding {path : Path} {count cap : Nat}
    {excess : Nat → Nat → Excess} {violation : Violation} :
    violation ∈ exceeding path count cap excess ↔
      cap < count ∧ violation = ⟨path, excess count cap⟩ := by
  unfold exceeding
  split
  · rename_i above
    simp [above]
  · rename_i within
    simp [within]

theorem overlong?_eq_none {visit : Visit} :
    limits.overlong? visit = none ↔
      (∀ steps, visit.node = .sequence steps →
          steps.length ≤ limits.maxSequenceLength) ∧
        (∀ branches join, visit.node = .fanout branches join →
          branches.length ≤ limits.maxFanoutBranches) ∧
        ∀ routes rules fallback,
          visit.node = .dispatch routes rules fallback →
            rules.length ≤ limits.maxDispatchRules := by
  unfold overlong?
  cases visit.node <;> simp

theorem isDepth_of_overlong? {visit : Visit} {violation : Violation}
    (found : limits.overlong? visit = some violation) :
    violation.excess.isDepth = false := by
  unfold overlong? at found
  cases kind : visit.node with
  | call _ | branch _ _ _ => simp [kind] at found
  | sequence _ | fanout _ _ | dispatch _ _ _ =>
      simp only [kind, Option.ite_none_right_eq_some,
        Option.some.injEq] at found
      rw [← found.2]
      rfl

theorem excessesAt_of_shallow {visit : Visit}
    (shallow : visit.depth ≤ limits.maxDepth) :
    limits.excessesAt visit = (limits.overlong? visit).toList := by
  rw [excessesAt, depthViolations, exceeding_eq_nil.mpr shallow,
    List.nil_append]

theorem excessesAt_of_deep {visit : Visit}
    (deep : limits.maxDepth < visit.depth) :
    limits.excessesAt visit =
      ⟨visit.path, .depth limits.maxDepth⟩ ::
        (limits.overlong? visit).toList := by
  rw [excessesAt, depthViolations, exceeding, if_pos deep,
    List.singleton_append]

theorem excessesAt_eq_nil {visit : Visit} :
    limits.excessesAt visit = [] ↔
      visit.depth ≤ limits.maxDepth ∧ limits.overlong? visit = none := by
  rw [excessesAt, List.append_eq_nil_iff, depthViolations, exceeding_eq_nil,
    Option.toList_eq_nil_iff]

theorem filter_overlong? (visit : Visit) :
    (limits.overlong? visit).toList.filter (!·.excess.isDepth) =
      (limits.overlong? visit).toList := by
  rw [List.filter_eq_self]
  intro violation member
  rw [isDepth_of_overlong? (Option.mem_toList.mp member)]
  rfl

theorem filter_excessesAt (visit : Visit) :
    (limits.excessesAt visit).filter (!·.excess.isDepth) =
      (limits.overlong? visit).toList := by
  rcases Nat.lt_or_ge limits.maxDepth visit.depth with deep | shallow
  · rw [excessesAt_of_deep deep,
      List.filter_cons_of_neg (by simp [Excess.isDepth]), filter_overlong?]
  · rw [excessesAt_of_shallow shallow, filter_overlong?]

theorem mem_of_mem_firstDepthOnly {violations : List Violation}
    {violation : Violation} (member : violation ∈ firstDepthOnly violations) :
    violation ∈ violations := by
  induction violations with
  | nil => exact member
  | cons first rest induction =>
      rw [firstDepthOnly] at member
      split at member
      · rcases List.mem_cons.mp member with rfl | later
        · exact List.mem_cons_self
        · exact List.mem_cons_of_mem _ (List.mem_filter.mp later).1
      · rcases List.mem_cons.mp member with rfl | later
        · exact List.mem_cons_self
        · exact List.mem_cons_of_mem _ (induction later)

theorem firstDepthOnly_eq_nil {violations : List Violation} :
    firstDepthOnly violations = [] ↔ violations = [] := by
  cases violations with
  | nil => simp [firstDepthOnly]
  | cons violation rest =>
      simp only [firstDepthOnly]
      split <;> simp

theorem firstDepthOnly_append {violations : List Violation}
    (none : ∀ violation ∈ violations, violation.excess.isDepth = false)
    (rest : List Violation) :
    firstDepthOnly (violations ++ rest) =
      violations ++ firstDepthOnly rest := by
  induction violations with
  | nil => rfl
  | cons violation violations induction =>
      obtain ⟨here, later⟩ := List.forall_mem_cons.mp none
      rw [List.cons_append, firstDepthOnly, here, if_neg Bool.false_ne_true,
        induction later, List.cons_append]

end Limits

end Workflow
