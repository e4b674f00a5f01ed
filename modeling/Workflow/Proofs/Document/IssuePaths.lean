import Workflow.Analysis.Acceptance
import Workflow.Proofs.Document.Placement
import Workflow.Proofs.Document.SpecReading
import Workflow.Proofs.Limits.Walk
import Workflow.Proofs.Scope.Occurrences

/-!
# Every path leads to its problem

Three passes put paths into issues: the readers, the walk that measures a tree,
and the scope analysis.  The latter two never see the document, only the tree
and the path of its root, and yet their paths lead to values of the document:
to the array that is too long, and to the parameter or the condition that an
unbound reference stands in.  Both follow from where the nodes of the tree
stand, because everything that is reported is about a node that a walk visits.
-/

namespace Workflow

/-- The references that a node holds itself, and not in one of its children. -/
def Visit.occurrences (visit : Visit) (before : List Node) : List Occurrence :=
  match visit.node with
  | .call invocation =>
      Occurrence.ofParams (.field visit.path "params") before invocation.params
  | .branch condition _ _ =>
      Occurrence.ofCondition (.field visit.path "condition") before condition
  | .dispatch _ rules _ => Occurrence.ofRules visit.path before 0 rules
  | _ => []

namespace Node

theorem mem_visits (path : Path) (depth : Nat) (node : Node) :
    ⟨path, depth, node⟩ ∈ node.visits path depth := by
  unfold visits
  exact List.mem_cons_self

variable {occurrence : Occurrence}

mutual

/-- Every reference of a tree is held by a node that a walk visits. -/
theorem exists_visit_of_mem_occurrences
    (path : Path) (before : List Node) (depth : Nat) (node : Node)
    (member : occurrence ∈ node.occurrences path before) :
    ∃ visit ∈ node.visits path depth, ∃ front,
      occurrence ∈ visit.occurrences front := by
  cases node with
  | call invocation => exact ⟨_, List.mem_cons_self, before, member⟩
  | sequence steps =>
      obtain ⟨visit, inside, holds⟩ :=
        exists_visit_of_mem_occurrencesSteps path 0 before (depth + 1) steps
          member
      exact ⟨visit, List.mem_cons_of_mem _ inside, holds⟩
  | branch condition whenTrue otherwise =>
      cases otherwise with
      | none =>
          rcases List.mem_append.mp member with asked | inTrue
          · exact ⟨_, List.mem_cons_self, before, asked⟩
          · obtain ⟨visit, inside, holds⟩ :=
              exists_visit_of_mem_occurrences _ before (depth + 1) whenTrue
                inTrue
            exact ⟨visit, List.mem_cons_of_mem _ inside, holds⟩
      | some otherwise =>
          rcases List.mem_append.mp member with front | inFalse
          · rcases List.mem_append.mp front with asked | inTrue
            · exact ⟨_, List.mem_cons_self, before, asked⟩
            · obtain ⟨visit, inside, holds⟩ :=
                exists_visit_of_mem_occurrences _ before (depth + 1) whenTrue
                  inTrue
              exact ⟨visit,
                List.mem_cons_of_mem _ (List.mem_append_left _ inside), holds⟩
          · obtain ⟨visit, inside, holds⟩ :=
              exists_visit_of_mem_occurrences _ before (depth + 1) otherwise
                inFalse
            exact ⟨visit,
              List.mem_cons_of_mem _ (List.mem_append_right _ inside), holds⟩
  | fanout branches join =>
      obtain ⟨visit, inside, holds⟩ :=
        exists_visit_of_mem_occurrencesBranches path 0 before (depth + 1)
          branches member
      exact ⟨visit, List.mem_cons_of_mem _ inside, holds⟩
  | dispatch routes rules fallback =>
      rcases List.mem_append.mp member with asked | inRoutes
      · exact ⟨_, List.mem_cons_self, before, asked⟩
      · obtain ⟨visit, inside, holds⟩ :=
          exists_visit_of_mem_occurrencesRoutes _ before (depth + 1) routes
            inRoutes
        exact ⟨visit, List.mem_cons_of_mem _ inside, holds⟩
termination_by structural node

theorem exists_visit_of_mem_occurrencesSteps
    (path : Path) (position : Nat) (before : List Node) (depth : Nat)
    (steps : List Node)
    (member : occurrence ∈ occurrencesSteps path position before steps) :
    ∃ visit ∈ visitsList path "steps" position depth steps,
      ∃ front, occurrence ∈ visit.occurrences front := by
  cases steps with
  | nil => cases member
  | cons node rest =>
      rcases List.mem_append.mp member with inFirst | inRest
      · obtain ⟨visit, inside, holds⟩ :=
          exists_visit_of_mem_occurrences _ before depth node inFirst
        exact ⟨visit, List.mem_append_left _ inside, holds⟩
      · obtain ⟨visit, inside, holds⟩ :=
          exists_visit_of_mem_occurrencesSteps path (position + 1) _ depth rest
            inRest
        exact ⟨visit, List.mem_append_right _ inside, holds⟩
termination_by structural steps

theorem exists_visit_of_mem_occurrencesBranches (path : Path) (position : Nat)
    (before : List Node) (depth : Nat) (branches : List Node)
    (member : occurrence ∈ occurrencesBranches path position before branches) :
    ∃ visit ∈ visitsList path "branches" position depth branches,
      ∃ front, occurrence ∈ visit.occurrences front := by
  cases branches with
  | nil => cases member
  | cons node rest =>
      rcases List.mem_append.mp member with inFirst | inRest
      · obtain ⟨visit, inside, holds⟩ :=
          exists_visit_of_mem_occurrences _ before depth node inFirst
        exact ⟨visit, List.mem_append_left _ inside, holds⟩
      · obtain ⟨visit, inside, holds⟩ :=
          exists_visit_of_mem_occurrencesBranches path (position + 1) before
            depth rest inRest
        exact ⟨visit, List.mem_append_right _ inside, holds⟩
termination_by structural branches

theorem exists_visit_of_mem_occurrencesRoutes
    (path : Path) (before : List Node) (depth : Nat)
    (routes : List (String × Node))
    (member : occurrence ∈ occurrencesRoutes path before routes) :
    ∃ visit ∈ visitsRoutes path depth routes, ∃ front,
      occurrence ∈ visit.occurrences front := by
  cases routes with
  | nil => cases member
  | cons route rest =>
      obtain ⟨name, node⟩ := route
      rcases List.mem_append.mp member with inFirst | inRest
      · obtain ⟨visit, inside, holds⟩ :=
          exists_visit_of_mem_occurrences _ before depth node inFirst
        exact ⟨visit, List.mem_append_left _ inside, holds⟩
      · obtain ⟨visit, inside, holds⟩ :=
          exists_visit_of_mem_occurrencesRoutes path before depth rest inRest
        exact ⟨visit, List.mem_append_right _ inside, holds⟩
termination_by structural routes

end

end Node

namespace Document

variable {document : Value} {limits : Limits}

/-- The value at a path is a parameter of a call, or the condition of a
conditional or of a rule, and holds the reference. -/
inductive Holds (document : Value) : Path → Value → Reference → Prop where
  | parameter {path : Path} {members params : Members} {name : String}
      {value : Value}
      {references : List Reference} {reference : Reference}
      (inside : At document path (.object members))
      (type : members.get? "type" = some (.string "tool_call"))
      (given : members.get? "params" = some (.object params))
      (found : params.get? name = some value)
      (read : value.references = .ok references)
      (member : reference ∈ references) :
      Holds document (.field (.field path "params") name) value reference
  | condition {path : Path} {members : Members} {condition : String}
      {reference : Reference} (inside : At document path (.object members))
      (type : members.get? "type" = some (.string "conditional"))
      (given : members.get? "condition" = some (.string condition))
      (member : reference ∈ Template.references condition) :
      Holds document (.field path "condition") (.string condition) reference
  | rule {path : Path} {members rule : Members} {items : List Value}
      {position : Nat}
      {condition : String} {reference : Reference}
      (inside : At document path (.object members))
      (type : members.get? "type" = some (.string "orchestrator"))
      (given : members.get? "rules" = some (.array items))
      (taken : items[position]? = some (.object rule))
      (asked : rule.get? "condition" = some (.string condition))
      (member : reference ∈ Template.references condition) :
      Holds document (.field (path.item "rules" position) "condition")
        (.string condition) reference

theorem Holds.stands
    {path : Path} {value : Value} {reference : Reference}
    (holds : Holds document path value reference) :
    At document path value := by
  cases holds with
  | parameter inside _ given found _ _ =>
      exact (inside.field given).field found
  | condition inside _ given _ => exact inside.field given
  | rule inside _ given taken asked _ =>
      exact (inside.item given taken).field asked

theorem exists_rule_of_mem_ofRules
    {path : Path} {before : List Node} {start : Nat} {items : List Value}
    {rules : List Rule} {occurrence : Occurrence}
    (documents : items.Forall₂ RuleDocument rules)
    (member : occurrence ∈ Occurrence.ofRules path before start rules) :
    ∃ position value rule,
      items[position]? = some value ∧ RuleDocument value rule ∧
      occurrence ∈ Occurrence.ofCondition
        (.field (path.item "rules" (start + position)) "condition") before
          rule.condition := by
  induction documents generalizing start with
  | nil => cases member
  | @cons value rule items rules ofRule ofRest induction =>
      rcases List.mem_append.mp member with inFirst | inRest
      · exact ⟨0, value, rule, rfl, ofRule, inFirst⟩
      · obtain ⟨position, value, rule, taken, isRule, inside⟩ :=
          induction inRest
        refine ⟨position + 1, value, rule, taken, isRule, ?_⟩
        rwa [Nat.add_comm position 1, ← Nat.add_assoc]

/-- A reference of a node stands in the document where the analysis says. -/
theorem Matches.exists_holds
    {visit : Visit} {front : List Node} {occurrence : Occurrence}
    (addressable : document.isAddressable = true)
    (matching : Matches document visit.path visit.node)
    (member : occurrence ∈ visit.occurrences front) :
    ∃ value, Holds document occurrence.path value occurrence.reference := by
  obtain ⟨path, depth, node⟩ := visit
  obtain ⟨members, inside, type, shape⟩ := matching
  cases node with
  | call invocation =>
      obtain ⟨⟨name, value⟩, isParam, member⟩ := List.mem_flatMap.mp member
      split at member
      · rename_i references read
        obtain ⟨reference, isReference, rfl⟩ := List.mem_map.mp member
        rcases shape with given | ⟨none, _⟩
        · -- no other parameter has the name, so the name leads to this one
          have distinct := (inside.field given).distinct addressable
          have found := (Members.get?_eq_some distinct).mpr isParam
          exact ⟨value, .parameter inside type given found read isReference⟩
        · rw [none] at isParam
          cases isParam
      · cases member
  | branch condition whenTrue otherwise =>
      obtain ⟨reference, isReference, rfl⟩ := List.mem_map.mp member
      exact ⟨_, .condition inside type shape isReference⟩
  | dispatch routes rules fallback =>
      rcases shape with ⟨items, given, documents⟩ | ⟨none, _⟩
      · obtain ⟨position, value, rule, taken, ⟨ofRule, rfl, asked, _⟩,
          member⟩ :=
          exists_rule_of_mem_ofRules documents member
        obtain ⟨reference, isReference, rfl⟩ := List.mem_map.mp member
        rw [Nat.zero_add]
        exact ⟨_, .rule inside type given taken asked isReference⟩
      · rw [none] at member
        cases member
  | sequence steps => cases member
  | fanout branches join => cases member

/-- The value is what an excess is about: an array that is longer than its cap,
and for depth and tool calls the object of a node. -/
inductive Exceeds (limits : Limits) : Value → Excess → Prop where
  | depth {members : Members} :
      Exceeds limits (.object members) (.depth limits.maxDepth)
  | steps {items : List Value}
      (above : limits.maxSequenceLength < items.length) :
      Exceeds limits (.array items)
        (.steps items.length limits.maxSequenceLength)
  | branches {items : List Value}
      (above : limits.maxFanoutBranches < items.length) :
      Exceeds limits (.array items)
        (.branches items.length limits.maxFanoutBranches)
  | rules {items : List Value}
      (above : limits.maxDispatchRules < items.length) :
      Exceeds limits (.array items)
        (.rules items.length limits.maxDispatchRules)
  | toolCalls {members : Members} {count : Nat}
      (above : limits.maxToolCalls < count) :
      Exceeds limits (.object members) (.toolCalls count limits.maxToolCalls)

theorem Matches.exists_exceeds {visit : Visit} {violation : Violation}
    (matching : Matches document visit.path visit.node)
    (member : violation ∈ limits.excessesAt visit) :
    ∃ value, At document violation.path value ∧
      Exceeds limits value violation.excess := by
  obtain ⟨path, depth, node⟩ := visit
  obtain ⟨members, inside, type, shape⟩ := matching
  rcases List.mem_append.mp member with tooDeep | tooMany
  · obtain ⟨_, rfl⟩ := Limits.mem_exceeding.mp tooDeep
    exact ⟨_, inside, .depth⟩
  · have found := Option.mem_toList.mp tooMany
    cases node with
    | sequence steps =>
        obtain ⟨above, same⟩ := Option.ite_none_right_eq_some.mp found
        obtain rfl := Option.some.inj same
        obtain ⟨items, given, sameLength⟩ := shape
        rw [← sameLength] at above ⊢
        exact ⟨_, inside.field given, .steps above⟩
    | fanout branches join =>
        obtain ⟨above, same⟩ := Option.ite_none_right_eq_some.mp found
        obtain rfl := Option.some.inj same
        obtain ⟨items, given, sameLength⟩ := shape
        rw [← sameLength] at above ⊢
        exact ⟨_, inside.field given, .branches above⟩
    | dispatch routes rules fallback =>
        obtain ⟨above, same⟩ := Option.ite_none_right_eq_some.mp found
        obtain rfl := Option.some.inj same
        rcases shape with ⟨items, given, documents⟩ | ⟨none, _⟩
        · rw [← documents.length_eq] at above ⊢
          exact ⟨_, inside.field given, .rules above⟩
        · rw [none] at above
          cases above
    | call invocation => cases found
    | branch condition whenTrue otherwise => cases found

theorem Stands.exists_exceeds
    {path : Path} {node : Node} {violation : Violation}
    (standing : Stands document path node)
    (member : violation ∈ limits.violations path node) :
    ∃ value, At document violation.path value ∧
      Exceeds limits value violation.excess := by
  rw [Limits.violations_eq] at member
  rcases List.mem_append.mp member with atNode | tooMany
  · have walked := Limits.mem_of_mem_firstDepthOnly atNode
    obtain ⟨visit, visited, exceeds⟩ := List.mem_flatMap.mp walked
    exact (standing 1 visit visited).exists_exceeds exceeds
  · obtain ⟨above, rfl⟩ := Limits.mem_exceeding.mp tooMany
    obtain ⟨members, inside, _⟩ := standing 1 _ (node.mem_visits path 1)
    exact ⟨_, inside, .toolCalls above⟩

/-- An issue of scope is about a reference: it is the error that the reference
is unbound, or the warning that its root is contested. -/
inductive Reports : Issue → Reference → Prop where
  | unbound (error : ScopeError) : Reports error.issue error.reference
  | contested (warning : ScopeWarning) {reference : Reference}
      (sameRoot : warning.name = reference.root) : Reports warning.issue
        reference

/-- The path of an issue leads to a value, which for an issue of scope holds
the reference that is reported, and for one of complexity is what exceeds the
limits. -/
def Leads (limits : Limits) (document : Value) (issue : Issue) : Prop :=
  ∃ value, At document issue.path value ∧
    (issue.kind = .scope →
      ∃ reference,
        Reports issue reference ∧ Holds document issue.path value reference) ∧
    (issue.kind = .complexity →
      ∃ excess : Excess,
        issue.message = excess.message ∧ Exceeds limits value excess)

theorem Stands.exists_holds
    {path : Path} {node : Node} {scope : Scope} {finding : ScopeFinding}
    (standing : Stands document path node)
    (addressable : document.isAddressable = true)
    (member : finding ∈ (node.flow scope path).findings) :
    ∃ occurrence value, finding ∈ scope.findingsAt occurrence ∧
      Holds document occurrence.path value occurrence.reference := by
  have found := node.findings_flow scope path []
  rw [Scope.behind, List.foldl_nil] at found
  rw [found, List.mem_flatMap] at member
  obtain ⟨occurrence, isOccurrence, isFinding⟩ := member
  obtain ⟨visit, visited, front, holds⟩ :=
    node.exists_visit_of_mem_occurrences path [] 1 isOccurrence
  obtain ⟨value, holds⟩ :=
    (standing 1 visit visited).exists_holds addressable holds
  exact ⟨occurrence, value, isFinding, holds⟩

theorem leads_of_mem_issues
    {spec : Spec} {issue : Issue}
    (standing : Stands document (.field .document "workflow") spec.workflow)
    (addressable : document.isAddressable = true)
    (member : issue ∈ spec.issues limits) :
    Leads limits document issue := by
  simp only [Spec.issues, List.mem_append, List.mem_map] at member
  rcases member with (⟨violation, isViolation, rfl⟩ | ⟨error, isError, rfl⟩) |
    ⟨warning, isWarning, rfl⟩
  · obtain ⟨value, stands, exceeds⟩ := standing.exists_exceeds isViolation
    exact ⟨value, stands, nofun, fun _ => ⟨violation.excess, rfl, exceeds⟩⟩
  · obtain ⟨occurrence, value, found, holds⟩ :=
      standing.exists_holds addressable (ScopeReport.mem_errorsOf.mp isError)
    obtain ⟨samePath, sameReference⟩ := Scope.of_unbound_mem_check found
    rw [← samePath, ← sameReference] at holds
    exact ⟨value, holds.stands, fun _ => ⟨_, .unbound error, holds⟩, nofun⟩
  · obtain ⟨occurrence, value, found, holds⟩ :=
      standing.exists_holds addressable
        (ScopeReport.contested_of_mem_warningsOf isWarning)
    obtain ⟨rfl, _⟩ := Scope.of_contested_mem_check found
    exact ⟨value, holds.stands, fun _ => ⟨_, .contested _ rfl, holds⟩, nofun⟩

theorem leads_of_mem_inspect
    {issue : Issue} (addressable : document.isAddressable = true)
    (member : issue ∈ (inspect limits document).issues) :
    Leads limits document issue := by
  have read := ensures_readSpec addressable
  have ofReading :
      ∀ issue ∈ (readSpec document).issues, Leads limits document issue := by
    intro issue member
    obtain ⟨⟨value, stands⟩, noScope, noComplexity⟩ :=
      read.located issue member
    exact ⟨value, stands, fun isScope => absurd isScope noScope,
      fun isComplexity => absurd isComplexity noComplexity⟩
  simp only [inspect] at member
  split at member
  · rename_i spec isSpec
    rcases List.mem_append.mp member with inReading | ofSpec
    · exact ofReading issue inReading
    · exact leads_of_mem_issues (read.value spec isSpec) addressable ofSpec
  · exact ofReading issue member

/-- In a document with plain keys, the path of every error and of every warning
leads to a value.  If the issue is one of scope, that is the parameter or the
condition that holds the reference; if it is one of complexity, the array that
exceeds its cap, or the node. -/
theorem resolves_of_mem_check
    (limits : Limits) {document : Value}
    (addressable : document.isAddressable = true) {issue : Issue}
    (member : issue ∈ (check limits document).errors ∨
      issue ∈ (check limits document).warnings) :
    ∃ value, document.resolve? issue.path.render = some value ∧
      (issue.kind = .scope →
        ∃ reference, Reports issue reference ∧
          Holds document issue.path value reference) ∧
      (issue.kind = .complexity →
        ∃ excess : Excess,
          issue.message = excess.message ∧ Exceeds limits value excess) := by
  have inspected : issue ∈ (inspect limits document).issues :=
    member.elim (fun isError => (List.mem_filter.mp isError).1)
      fun isWarning => (List.mem_filter.mp isWarning).1
  obtain ⟨value, stands, ofScope, ofComplexity⟩ :=
    leads_of_mem_inspect addressable inspected
  exact ⟨value, stands.resolve?_render addressable, ofScope, ofComplexity⟩

/-- Two steps, the latter of which posts a draft that nothing has made. -/
def draftMembers : Members :=
  [("name", .string "drafting"), ("version", .string "1.0.0"),
    ("inputs", .array []),
    ("workflow",
      .object [("type", .string "sequential"),
        ("steps",
          .array [ .object
              [("type", .string "tool_call"), ("tool", .string "notify")],
            .object [("type", .string "tool_call"), ("tool", .string "post"),
              ("params",
                .object [("body", .string "\x7b\x7bdraft.text\x7d\x7d")])]])])]

def draftSpec : Spec where
  name := "drafting"
  description := ""
  version := "1.0.0"
  inputs := []
  outputs := []
  workflow := .sequence [.call ⟨"notify", [], none⟩,
    .call ⟨"post", [("body", .string "\x7b\x7bdraft.text\x7d\x7d")], none⟩]
  metadata := Sorted.ofList []

theorem specMembers_draftMembers : SpecMembers draftMembers draftSpec where
  nameAt := rfl
  name := by decide +kernel
  descriptionAt := ⟨none, .inl rfl, rfl⟩
  versionAt := rfl
  version := by decide +kernel
  inputsAt := ⟨_, rfl, .nil⟩
  inputs := lawfulNames_nil
  outputsAt := .inr ⟨rfl, .inl rfl⟩
  outputs := lawfulNames_nil
  metadataAt := .inr ⟨rfl, .inl rfl⟩
  workflowAt := by
    have notify : ToolCall.Lawful ⟨"notify", [], none⟩ :=
      ⟨by decide +kernel, nofun, nofun⟩
    have post : ToolCall.Lawful
        ⟨"post", [("body", .string "\x7b\x7bdraft.text\x7d\x7d")], none⟩ := by
      refine ⟨by decide +kernel, ?_, nofun⟩
      rintro param (_ | ⟨_, ⟨⟩⟩)
      exact ⟨by decide +kernel, [⟨"draft", ["text"]⟩], by decide +kernel⟩
    exact ⟨_, rfl, .sequence rfl rfl
      (.cons (.call rfl rfl (.inr ⟨rfl, .inl rfl⟩) (.inl rfl) notify)
        (.cons (.call rfl rfl (.inl rfl) (.inl rfl) post) .nil)) (by simp)⟩

def unboundDraft : ScopeError where
  path :=
    .field (.field (.item (.field .document "workflow") "steps" 1) "params")
      "body"
  reference := ⟨"draft", ["text"]⟩
  available := ∅
  partiallyBound := false

theorem resolves_of_mem_check_draftMembers :
    (Value.object draftMembers).isAddressable = true ∧
      unboundDraft.issue ∈ (check {} (.object draftMembers)).errors ∧
      (Value.object draftMembers).resolve? unboundDraft.issue.path.render =
        some (.string "\x7b\x7bdraft.text\x7d\x7d") ∧
      ∃ reference, Reports unboundDraft.issue reference ∧
        Holds (.object draftMembers) unboundDraft.issue.path
          (.string "\x7b\x7bdraft.text\x7d\x7d") reference := by
  have addressable : (Value.object draftMembers).isAddressable = true := by
    decide +kernel
  have read : (readSpec (.object draftMembers)).value = some draftSpec :=
    (gives_readSpec.mpr ⟨_, ⟨_, rfl, specMembers_draftMembers⟩, rfl⟩).value
  have unbound : unboundDraft ∈ draftSpec.analyze.errors := by decide +kernel
  have reported :
      unboundDraft.issue ∈ (check {} (.object draftMembers)).errors := by
    simp only [check, inspect, read, Report.ofIssues]
    refine List.mem_filter.mpr ⟨List.mem_append_right _ ?_, rfl⟩
    exact List.mem_append_left _
      (List.mem_append_right _ (List.mem_map_of_mem unbound))
  have rendered :
      unboundDraft.issue.path.render = "workflow.steps[1].params.body" := by
    decide +kernel
  have there :
      (Value.object draftMembers).resolve? "workflow.steps[1].params.body" =
        some (.string "\x7b\x7bdraft.text\x7d\x7d") := rfl
  obtain ⟨value, resolved, ofScope, _⟩ :=
    resolves_of_mem_check {} addressable (.inl reported)
  rw [rendered, there] at resolved ⊢
  obtain rfl := Option.some.inj resolved
  exact ⟨addressable, reported, rfl, ofScope rfl⟩

end Document

end Workflow
