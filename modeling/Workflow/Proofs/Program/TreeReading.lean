import Workflow.Proofs.Program.TreeCode
import Workflow.Proofs.Scope.Races

/-!
# The code of a tree, read line by line

Something that is read off every line by itself adds up over the code of a
tree.  It is enough to know what it finds in the line of a call, in the
question that a condition becomes and in the line that runs branches, and that
it finds nothing in the lines between them: then what it finds in all of the
code is what it finds for the sites of the tree, in the order in which these
are written.
-/

namespace Workflow.Program

open Code

/-- What is read off lines, with what it finds in each kind of line of a
tree. -/
structure LineReading (α : Type) where
  read : List Char → List α
  ofCall : ToolCall → List α
  ofCondition : String → List α
  ofJoin : List Node → JoinPolicy → List α
  call {call : ToolCall} {code : Code} (lawful : call.Lawful)
    (written : callLine call = .ok code) : gather read code = ofCall call
  condition {condition : String}
    (accepted : Condition.check condition = .ok ()) {keyword : String}
    (isKeyword : keyword = "if " ∨ keyword = "elif ") : read
    (keyword ++ conditionExpression condition ++ ":").toList =
    ofCondition condition
  join (number : Nat) (branches : List Node) (join : JoinPolicy) :
    gather read (joinLine number branches join) = ofJoin branches join
  route (number : Nat) {target : String}
    (identifier : isIdentifier target = true) : gather read
    (routeLine number target) = []
  unitHeader (number position : Nat) :
    read ("def " ++ unitName number position ++ "(ctx):").toList = []
  routeHeader (number : Nat) {name : String}
    (identifier : isIdentifier name = true) : read
    ("def " ++ routeName number name ++ "(ctx):").toList = []
  otherwise : read "else:".toList = []
  pass : read "pass".toList = []

namespace LineReading

variable {α : Type} (reading : LineReading α)

/-- What is found for a node itself, and not for its children. -/
def ofSite (site : Site) : List α :=
  match site.node with
  | .call invocation => reading.ofCall invocation
  | .sequence _ => []
  | .branch condition _ _ => reading.ofCondition condition
  | .fanout branches join => reading.ofJoin branches join
  | .dispatch _ rules _ =>
      rules.flatMap fun rule => reading.ofCondition rule.condition

theorem gatherAll_ruleBlocks
    (number : Nat) {keyword : String} {rules : List Rule}
    (isKeyword : keyword ++ " " = "if " ∨ keyword ++ " " = "elif ")
    (lawful : ∀ rule ∈ rules, Condition.check rule.condition = .ok () ∧
      isIdentifier rule.target = true) :
    gatherAll reading.read (ruleBlocks number keyword rules) =
      rules.flatMap fun rule => reading.ofCondition rule.condition := by
  induction rules generalizing keyword with
  | nil => rfl
  | cons rule rest induction =>
      obtain ⟨⟨accepted, identifier⟩, ofRest⟩ := List.forall_mem_cons.mp lawful
      rw [ruleBlocks, gatherAll, gather, reading.condition accepted isKeyword,
        gatherAll, reading.route number identifier, gatherAll,
        induction (.inr rfl) ofRest, List.flatMap_cons, List.append_nil,
        List.append_nil]

theorem gatherAll_routeChoice
    {number : Nat} {rules : List Rule} {fallback : Option String}
    {known : List String} (routing : LawfulRouting known rules fallback)
    (identifiers : ∀ name ∈ known, isIdentifier name = true)
    {codes : List Code}
    (written : routeChoice number rules fallback = .ok codes) :
    gatherAll reading.read codes =
      rules.flatMap fun rule => reading.ofCondition rule.condition := by
  have ofRules : ∀ rule ∈ rules,
      Condition.check rule.condition = .ok () ∧
      isIdentifier rule.target = true := by
    intro rule member
    obtain ⟨accepted, isKnown⟩ := routing.ofRule rule member
    exact ⟨accepted, identifiers _ isKnown⟩
  have ofFallback : ∀ target, fallback = some target →
      gather reading.read (routeLine number target) = [] := by
    intro target isFallback
    exact reading.route number
      (identifiers _ (routing.ofFallback target isFallback))
  unfold routeChoice at written
  split at written
  · obtain rfl := Except.ok.inj written
    rw [gatherAll, ofFallback _ rfl]
    rfl
  · cases written
  · obtain rfl := Except.ok.inj written
    rw [gatherAll_append,
      reading.gatherAll_ruleBlocks number (.inl rfl) ofRules, gatherAll,
      gather, reading.otherwise]
    cases fallback with
    | some target =>
        simp only [gatherAll, ofFallback target rfl, List.append_nil]
    | none => simp only [gatherAll, gather, reading.pass, List.append_nil]

mutual

/-- What is found in the code of a tree is what is found for its sites. -/
theorem gatherAll_treeCode
    {last : Nat} {node : Node} {result : Numbered} (lawful : node.Lawful)
    (emitted : treeCode last node = .ok result) (path : Path)
    (before : List Node) :
    gatherAll reading.read result.code =
      (node.written path before).flatMap reading.ofSite := by
  match node with
  | .call invocation =>
      obtain ⟨line, isLine, returned⟩ := bind_eq_ok_iff.mp emitted
      obtain rfl := Except.ok.inj returned
      rw [gatherAll, gatherAll, reading.call lawful isLine, Node.written,
        List.flatMap_singleton, List.append_nil]
      rfl
  | .sequence steps =>
      rw [gatherAll_stepCode lawful.2 emitted path 0 before, Node.written]
      rfl
  | .branch condition whenTrue none =>
      obtain ⟨first, isFirst, returned⟩ := bind_eq_ok_iff.mp emitted
      obtain rfl := Except.ok.inj returned
      have inTrue :=
        gatherAll_treeCode lawful.2 isFirst (.field path "if_true") before
      rw [gatherAll, gather, reading.condition lawful.1 (.inl rfl), inTrue,
        gatherAll, List.append_nil, Node.written]
      rfl
  | .branch condition whenTrue (some otherwise) =>
      obtain ⟨first, isFirst, returned⟩ := bind_eq_ok_iff.mp emitted
      obtain ⟨second, isSecond, returned⟩ := bind_eq_ok_iff.mp returned
      obtain rfl := Except.ok.inj returned
      have inTrue :=
        gatherAll_treeCode lawful.2.1 isFirst (.field path "if_true") before
      have inFalse :=
        gatherAll_treeCode lawful.2.2 isSecond (.field path "if_false") before
      rw [gatherAll, gather, reading.condition lawful.1 (.inl rfl), inTrue,
        gatherAll, gather, reading.otherwise, inFalse, gatherAll, Node.written,
        List.flatMap_cons, List.flatMap_append]
      simp only [List.append_nil, List.nil_append, List.append_assoc]
      rfl
  | .fanout branches join =>
      obtain ⟨units, isUnits, returned⟩ := bind_eq_ok_iff.mp emitted
      obtain rfl := Except.ok.inj returned
      rw [gatherAll_append, gatherAll_unitCode lawful.2 isUnits path 0 before,
        gatherAll, gatherAll, reading.join, Node.written, List.flatMap_append,
        List.flatMap_singleton, List.append_nil]
      rfl
  | .dispatch routes rules fallback =>
      obtain ⟨functions, isFunctions, returned⟩ := bind_eq_ok_iff.mp emitted
      obtain ⟨choice, isChoice, returned⟩ := bind_eq_ok_iff.mp returned
      obtain rfl := Except.ok.inj returned
      obtain ⟨_, _, ofRoutes, routing⟩ := lawful
      have identifiers :
          ∀ name ∈ routes.map Prod.fst, isIdentifier name = true := by
        intro name member
        obtain ⟨route, isRoute, rfl⟩ := List.mem_map.mp member
        exact (Node.lawfulRoutes_iff.mp ofRoutes route isRoute).1
      rw [gatherAll_append,
        gatherAll_routeCode ofRoutes isFunctions (.field path "sub_workflows")
          before,
        reading.gatherAll_routeChoice routing identifiers isChoice,
        Node.written,
        List.flatMap_append, List.flatMap_singleton]
      rfl
termination_by structural node

theorem gatherAll_stepCode
    {last : Nat} {steps : List Node} {result : Numbered}
    (lawful : Node.LawfulList steps)
    (emitted : stepCode last steps = .ok result) (path : Path) (position : Nat)
    (before : List Node) :
    gatherAll reading.read result.code =
      (Node.writtenSteps path position before steps).flatMap
        reading.ofSite := by
  match steps with
  | [] =>
      obtain rfl := Except.ok.inj emitted
      rfl
  | node :: rest =>
      obtain ⟨first, isFirst, returned⟩ := bind_eq_ok_iff.mp emitted
      obtain ⟨later, isLater, returned⟩ := bind_eq_ok_iff.mp returned
      obtain rfl := Except.ok.inj returned
      rw [gatherAll_append,
        gatherAll_treeCode lawful.1 isFirst (path.item "steps" position)
          before,
        gatherAll_stepCode lawful.2 isLater path (position + 1)
          (before ++ [node]),
        Node.writtenSteps, List.flatMap_append]
termination_by structural steps

theorem gatherAll_unitCode
    {number last offset : Nat} {branches : List Node} {result : Numbered}
    (lawful : Node.LawfulList branches)
    (emitted : unitCode number last offset branches = .ok result) (path : Path)
    (position : Nat) (before : List Node) :
    gatherAll reading.read result.code =
      (Node.writtenBranches path position before branches).flatMap
        reading.ofSite := by
  match branches with
  | [] =>
      obtain rfl := Except.ok.inj emitted
      rfl
  | node :: rest =>
      obtain ⟨first, isFirst, returned⟩ := bind_eq_ok_iff.mp emitted
      obtain ⟨later, isLater, returned⟩ := bind_eq_ok_iff.mp returned
      obtain rfl := Except.ok.inj returned
      rw [gatherAll, gather, reading.unitHeader,
        gatherAll_treeCode lawful.1 isFirst (path.item "branches" position)
          before,
        gatherAll_unitCode lawful.2 isLater path (position + 1) before,
        Node.writtenBranches,
        List.flatMap_append]
      rfl
termination_by structural branches

theorem gatherAll_routeCode
    {number last : Nat} {routes : List (String × Node)} {result : Numbered}
    (lawful : Node.LawfulRoutes routes)
    (emitted : routeCode number last routes = .ok result) (path : Path)
    (before : List Node) :
    gatherAll reading.read result.code =
      (Node.writtenRoutes path before routes).flatMap reading.ofSite := by
  match routes with
  | [] =>
      obtain rfl := Except.ok.inj emitted
      rfl
  | (name, node) :: rest =>
      obtain ⟨first, isFirst, returned⟩ := bind_eq_ok_iff.mp emitted
      obtain ⟨later, isLater, returned⟩ := bind_eq_ok_iff.mp returned
      obtain rfl := Except.ok.inj returned
      rw [gatherAll, gather, reading.routeHeader number lawful.1,
        gatherAll_treeCode lawful.2.1 isFirst (.field path name) before,
        gatherAll_routeCode lawful.2.2 isLater path before, Node.writtenRoutes,
        List.flatMap_append]
      rfl
termination_by structural routes

end

/-- Nothing is found in conditions and in the lines that run branches. -/
structure OfCallsAlone (reading : LineReading α) : Prop where
  noCondition : ∀ condition, reading.ofCondition condition = []
  noJoin : ∀ branches join, reading.ofJoin branches join = []

namespace OfCallsAlone

variable {reading : LineReading α}

mutual

/-- Where nothing is found but in calls, these are met in the order of the
document. -/
theorem flatMap_written
    (alone : reading.OfCallsAlone) (path : Path) (before : List Node)
    (node : Node) :
    (node.written path before).flatMap reading.ofSite =
      node.calls.flatMap reading.ofCall := by
  match node with
  | .call invocation => rfl
  | .sequence steps =>
      rw [Node.written, List.flatMap_cons,
        alone.flatMap_writtenSteps path 0 before steps]
      rfl
  | .branch condition whenTrue none =>
      have here :
          reading.ofSite ⟨path, before, .branch condition whenTrue none⟩ =
            [] :=
        alone.noCondition condition
      rw [Node.written, List.flatMap_cons, here, List.nil_append, Node.calls,
        alone.flatMap_written (.field path "if_true") before whenTrue]
  | .branch condition whenTrue (some otherwise) =>
      have here :
          reading.ofSite
            ⟨path, before, .branch condition whenTrue (some otherwise)⟩ = [] :=
        alone.noCondition condition
      rw [Node.written, List.flatMap_cons, here, List.nil_append, Node.calls,
        List.flatMap_append, List.flatMap_append,
        alone.flatMap_written (.field path "if_true") before whenTrue,
        alone.flatMap_written (.field path "if_false") before otherwise]
  | .fanout branches join =>
      have here : reading.ofSite ⟨path, before, .fanout branches join⟩ = [] :=
        alone.noJoin branches join
      rw [Node.written, List.flatMap_append, List.flatMap_singleton, here,
        List.append_nil, Node.calls,
        alone.flatMap_writtenBranches path 0 before branches]
  | .dispatch routes rules fallback =>
      have here :
          reading.ofSite ⟨path, before, .dispatch routes rules fallback⟩ =
            [] :=
        List.flatMap_eq_nil_iff.mpr fun rule _ =>
          alone.noCondition rule.condition
      rw [Node.written, List.flatMap_append, List.flatMap_singleton, here,
        List.append_nil, Node.calls,
        alone.flatMap_writtenRoutes (.field path "sub_workflows") before
          routes]
termination_by structural node

theorem flatMap_writtenSteps
    (alone : reading.OfCallsAlone) (path : Path) (position : Nat)
    (before steps : List Node) :
    (Node.writtenSteps path position before steps).flatMap reading.ofSite =
      (Node.callsList steps).flatMap reading.ofCall := by
  match steps with
  | [] => rfl
  | node :: rest =>
      rw [Node.writtenSteps, Node.callsList, List.flatMap_append,
        List.flatMap_append,
        alone.flatMap_written (path.item "steps" position) before node,
        alone.flatMap_writtenSteps path (position + 1) (before ++ [node]) rest]
termination_by structural steps

theorem flatMap_writtenBranches
    (alone : reading.OfCallsAlone) (path : Path) (position : Nat)
    (before branches : List Node) :
    (Node.writtenBranches path position before branches).flatMap
      reading.ofSite =
      (Node.callsList branches).flatMap reading.ofCall := by
  match branches with
  | [] => rfl
  | node :: rest =>
      rw [Node.writtenBranches, Node.callsList, List.flatMap_append,
        List.flatMap_append,
        alone.flatMap_written (path.item "branches" position) before node,
        alone.flatMap_writtenBranches path (position + 1) before rest]
termination_by structural branches

theorem flatMap_writtenRoutes
    (alone : reading.OfCallsAlone) (path : Path) (before : List Node)
    (routes : List (String × Node)) :
    (Node.writtenRoutes path before routes).flatMap reading.ofSite =
      (Node.callsRoutes routes).flatMap reading.ofCall := by
  match routes with
  | [] => rfl
  | (name, node) :: rest =>
      rw [Node.writtenRoutes, Node.callsRoutes, List.flatMap_append,
        List.flatMap_append,
        alone.flatMap_written (.field path name) before node,
        alone.flatMap_writtenRoutes path before rest]
termination_by structural routes

end

end OfCallsAlone

end LineReading

end Workflow.Program
