import Workflow.Proofs.Document.Acceptance
import Workflow.Proofs.Reference.Mentions

/-!
# Redacted documents

What a document says apart from its secrets and its remarks: credentials that
are given literally are blotted out, examples of secret inputs are dropped, and
so are the metadata and the descriptions of inputs and outputs.  The redacted
document is that of the redacted specification, and it is accepted under the
same limits.
-/

namespace Workflow

/-- A credential that is given literally: it is not null, and no reference
stands in it. -/
def isLiteralCredential (name : String) (value : Value) : Bool :=
  isSecretName name && !value.isNull && value.mentions.isEmpty

def redactParam (name : String) (value : Value) : Value :=
  if isLiteralCredential name value then .string "" else value

namespace Document

mutual

/-- The document of a tree without literal credentials. -/
def redactNode : Value → Value
  | .object members => .object (redactMembers members)
  | other => other

/-- What is kept of a node under one of its keys. -/
def redactAt (key : String) : Value → Value
  | .array items =>
      if key == "steps" || key == "branches" then .array (redactNodes items)
      else .array items
  | .object entries =>
      if key == "params" then
        .object
          (entries.map fun param => (param.1, redactParam param.1 param.2))
      else if key == "sub_workflows" then .object (redactRoutes entries)
      else if key == "if_true" || key == "if_false" then
        .object (redactMembers entries)
      else .object entries
  | other => other

def redactMembers : List (String × Value) → Members
  | [] => []
  | (key, value) :: rest => (key, redactAt key value) :: redactMembers rest

def redactNodes : List Value → List Value
  | [] => []
  | value :: rest => redactNode value :: redactNodes rest

def redactRoutes : List (String × Value) → Members
  | [] => []
  | (name, value) :: rest => (name, redactNode value) :: redactRoutes rest

end

def namesSecret (members : Members) : Bool :=
  match members.get? "name" with
  | some (.string name) => isSecretName name
  | _ => false

def redactInput : Value → Value
  | .object members =>
      .object (List.filter (fun member =>
        member.1 != "description" &&
        !(member.1 == "example" && namesSecret members)) members)
  | other => other

def redactOutput : Value → Value
  | .object members =>
      .object (List.filter (fun member => member.1 != "description") members)
  | other => other

def redactField (key : String) (value : Value) : Value :=
  if key == "workflow" then redactNode value
  else
    match value with
    | .array items =>
        if key == "inputs" then .array (items.map redactInput)
        else if key == "outputs" then .array (items.map redactOutput)
        else .array items
    | other => other

def redactFields (members : Members) : Members :=
  (List.filter (fun member => member.1 != "metadata") members).map
    fun member =>
    (member.1, redactField member.1 member.2)

/-- A document without its secrets and its remarks. -/
def redact : Value → Value
  | .object members => .object (redactFields members)
  | other => other

end Document

def ToolCall.redacted (call : ToolCall) : ToolCall :=
  { call with
    params :=
      call.params.map fun param => (param.1, redactParam param.1 param.2) }

namespace Node

mutual

def redacted : Node → Node
  | .call invocation => .call invocation.redacted
  | .sequence steps => .sequence (redactedList steps)
  | .branch condition whenTrue none =>
      .branch condition (redacted whenTrue) none
  | .branch condition whenTrue (some otherwise) =>
      .branch condition (redacted whenTrue) (some (redacted otherwise))
  | .fanout branches join => .fanout (redactedList branches) join
  | .dispatch routes rules fallback =>
      .dispatch (redactedRoutes routes) rules fallback

def redactedList : List Node → List Node
  | [] => []
  | node :: rest => redacted node :: redactedList rest

def redactedRoutes : List (String × Node) → List (String × Node)
  | [] => []
  | (name, node) :: rest => (name, redacted node) :: redactedRoutes rest

end

theorem redactedRoutes_eq_map (routes : List (String × Node)) :
    redactedRoutes routes = routes.map (Prod.map id redacted) := by
  induction routes with
  | nil => rfl
  | cons route rest induction =>
      rw [redactedRoutes, induction, List.map_cons, Prod.map, id]

theorem redactedRoutes_ofList (routes : List (String × Node)) :
    redactedRoutes (Sorted.ofList routes) =
      Sorted.ofList (redactedRoutes routes) := by
  rw [redactedRoutes_eq_map, redactedRoutes_eq_map, Sorted.ofList_map]

theorem map_fst_redactedRoutes (routes : List (String × Node)) :
    (redactedRoutes routes).map Prod.fst = routes.map Prod.fst := by
  induction routes with
  | nil => rfl
  | cons route rest induction => simp [redactedRoutes, induction]

theorem length_redactedList (nodes : List Node) :
    (redactedList nodes).length = nodes.length := by
  induction nodes with
  | nil => rfl
  | cons node rest induction => simp [redactedList, induction]

theorem redactedList_eq_nil {nodes : List Node} :
    redactedList nodes = [] ↔ nodes = [] := by
  cases nodes <;> simp [redactedList]

end Node

def Input.redacted (input : Input) : Input :=
  { input with
    description := none
    example? := if input.isSecret then none else input.example? }

def Output.redacted (output : Output) : Output :=
  { output with description := none }

def Spec.redacted (spec : Spec) : Spec :=
  { spec with
    inputs := spec.inputs.map Input.redacted
    outputs := spec.outputs.map Output.redacted
    workflow := spec.workflow.redacted
    metadata := [] }

namespace Members

theorem get?_map
    (change : String → Value → Value) (members : Members) (key : String) :
    Members.get?
      (members.map fun member => (member.1, change member.1 member.2)) key =
      (members.get? key).map (change key) := by
  induction members with
  | nil => rfl
  | cons member rest induction =>
      obtain ⟨other, value⟩ := member
      simp only [get?, List.map_cons, List.lookup_cons] at induction ⊢
      split
      · rename_i same
        rw [beq_iff_eq.mp same]
        rfl
      · exact induction

theorem get?_filter (keep : String → Bool) (members : Members) (key : String) :
    Members.get? (List.filter (fun member => keep member.1) members) key =
      if keep key then members.get? key else none := by
  induction members with
  | nil => simp [get?]
  | cons member rest induction =>
      obtain ⟨other, value⟩ := member
      simp only [get?] at induction
      by_cases same : key = other
      · subst same
        by_cases kept : keep key = true
        · simp [get?, kept]
        · simp [get?, kept, induction]
      · have different : (key == other) = false := by simpa using same
        by_cases kept : keep other = true
        · simp [get?, kept, induction, List.lookup_cons, different]
        · simp [get?, kept, induction, List.lookup_cons, different]

end Members

namespace Document

variable {members : Members}

theorem get?_redactMembers (key : String) :
    Members.get? (redactMembers members) key =
      (members.get? key).map (redactAt key) := by
  have same : redactMembers members =
      members.map fun member => (member.1, redactAt member.1 member.2) := by
    induction members with
    | nil => rfl
    | cons member rest induction => simp [redactMembers, induction]
  rw [same, Members.get?_map]

theorem redactAt_whenTrue (value : Value) :
    redactAt "if_true" value = redactNode value := by
  cases value <;> rfl

theorem redactAt_otherwise (value : Value) :
    redactAt "if_false" value = redactNode value := by
  cases value <;> rfl

theorem get?_redactMembers_string {key text : String}
    (found : members.get? key = some (.string text)) :
    Members.get? (redactMembers members) key = some (.string text) := by
  rw [get?_redactMembers, found]
  rfl

theorem get?_redactMembers_absent {key : String}
    (absent : members.get? key = none ∨ members.get? key = some .null) :
    Members.get? (redactMembers members) key = none ∨
      Members.get? (redactMembers members) key = some .null := by
  rw [get?_redactMembers]
  rcases absent with absent | absent
  · exact .inl (by rw [absent]; rfl)
  · exact .inr (by rw [absent]; rfl)

theorem optionalText_redactMembers {key : String} {text : Option String}
    (optional : OptionalText members key text) :
    OptionalText (redactMembers members) key text := by
  cases text with
  | none => exact get?_redactMembers_absent optional
  | some text => exact get?_redactMembers_string optional

theorem rulesAt_redactMembers
    {rules : List Rule} (rulesAt : RulesAt members rules) :
    RulesAt (redactMembers members) rules := by
  rcases rulesAt with ⟨items, found, documents⟩ | ⟨empty, absent⟩
  · refine .inl ⟨items, ?_, documents⟩
    rw [get?_redactMembers, found]
    rfl
  · exact .inr ⟨empty, get?_redactMembers_absent absent⟩

theorem paramsAt_redactMembers
    {params : Members} (paramsAt : ParamsAt members params) :
    ParamsAt (redactMembers members)
      (params.map fun param => (param.1, redactParam param.1 param.2)) := by
  rcases paramsAt with found | ⟨rfl, absent⟩
  · refine .inl ?_
    rw [get?_redactMembers, found]
    rfl
  · exact .inr ⟨rfl, get?_redactMembers_absent absent⟩

end Document

theorem exists_references_redactParam {name : String} {value : Value}
    (templates : ∃ references, value.references = .ok references) :
    ∃ references, (redactParam name value).references = .ok references := by
  unfold redactParam
  split
  · exact ⟨[], rfl⟩
  · exact templates

theorem ToolCall.Lawful.redacted {call : ToolCall} (lawful : call.Lawful) :
    call.redacted.Lawful where
  tool := lawful.tool
  params := by
    intro param member
    obtain ⟨original, isParam, rfl⟩ := List.mem_map.mp member
    obtain ⟨identifier, templates⟩ := lawful.params original isParam
    exact ⟨identifier, exists_references_redactParam templates⟩
  output := lawful.output

namespace Document

mutual

theorem NodeDocument.redacted
    {value : Value} {node : Node} (document : NodeDocument value node) :
    NodeDocument (redactNode value) node.redacted :=
  match document with
  | .call type toolAt paramsAt outputAt lawful =>
      .call (get?_redactMembers_string type) (get?_redactMembers_string toolAt)
        (paramsAt_redactMembers paramsAt) (optionalText_redactMembers outputAt)
          lawful.redacted
  | .sequence type stepsAt documents notEmpty => by
      refine .sequence (get?_redactMembers_string type) ?_ documents.redacted
        ?_
      · rw [get?_redactMembers, stepsAt]
        rfl
      · rwa [ne_eq, Node.redactedList_eq_nil]
  | .branch type conditionAt accepted trueAt document falseAt => by
      refine .branch (get?_redactMembers_string type)
        (get?_redactMembers_string conditionAt) accepted ?_ document.redacted
        (get?_redactMembers_absent falseAt)
      rw [get?_redactMembers, trueAt, Option.map_some, redactAt_whenTrue]
  | .branchElse type conditionAt accepted trueAt document falseAt
      otherDocument =>
      by
      refine .branchElse (get?_redactMembers_string type)
        (get?_redactMembers_string conditionAt) accepted ?_ document.redacted
        ?_ otherDocument.redacted
      · rw [get?_redactMembers, trueAt, Option.map_some, redactAt_whenTrue]
      · rw [get?_redactMembers, falseAt, Option.map_some, redactAt_otherwise]
  | .fanout type branchesAt documents several joinAt => by
      refine .fanout (get?_redactMembers_string type) ?_ documents.redacted ?_
        (get?_redactMembers_string joinAt)
      · rw [get?_redactMembers, branchesAt]
        rfl
      · rwa [Node.length_redactedList]
  | .dispatch type routesAt documents notEmpty rulesAt fallbackAt routing => by
      rw [Node.redacted, Node.redactedRoutes_ofList]
      refine .dispatch (get?_redactMembers_string type) ?_ documents.redacted
        ?_ (rulesAt_redactMembers rulesAt)
        (optionalText_redactMembers fallbackAt) ?_
      · rw [get?_redactMembers, routesAt]
        rfl
      · rwa [ne_eq, ← List.map_eq_nil_iff, Node.map_fst_redactedRoutes,
          List.map_eq_nil_iff]
      · rwa [Node.map_fst_redactedRoutes]

theorem NodeDocuments.redacted {values : List Value} {nodes : List Node}
    (documents : NodeDocuments values nodes) :
    NodeDocuments (redactNodes values) (Node.redactedList nodes) :=
  match documents with
  | .nil => .nil
  | .cons first rest => .cons first.redacted rest.redacted

theorem RouteDocuments.redacted
    {entries : Members} {routes : List (String × Node)}
    (documents : RouteDocuments entries routes) :
    RouteDocuments (redactRoutes entries) (Node.redactedRoutes routes) :=
  match documents with
  | .nil => .nil
  | .cons identifier first rest =>
      .cons identifier first.redacted rest.redacted

end

theorem InputDocument.redacted
    {value : Value} {input : Input} (document : InputDocument value input) :
    InputDocument (redactInput value) input.redacted := by
  obtain ⟨members, rfl, nameAt, typeAt, _, sample⟩ := document
  have kept := Members.get?_filter
    (fun key =>
      key != "description" && !(key == "example" && namesSecret members))
      members
  have secret : namesSecret members = input.isSecret := by
    simp [namesSecret, nameAt, Input.isSecret]
  refine ⟨_, rfl, ?_, ?_, .inl ?_, ?_⟩
  · rw [kept]
    exact nameAt
  · rw [kept]
    exact typeAt
  · rw [kept]
    rfl
  · rw [Document.sample?, kept, secret]
    cases isSecret : input.isSecret with
    | true => simp [Input.redacted, isSecret]
    | false =>
        simp only [Input.redacted, isSecret, sample]
        rfl

theorem OutputDocument.redacted {value : Value} {output : Output}
    (document : OutputDocument value output) :
    OutputDocument (redactOutput value) output.redacted := by
  obtain ⟨members, rfl, nameAt, typeAt, _⟩ := document
  have kept := Members.get?_filter (fun key => key != "description") members
  refine ⟨_, rfl, ?_, ?_, .inl ?_⟩
  · rw [kept]
    exact nameAt
  · rw [kept]
    exact typeAt
  · rw [kept]
    rfl

theorem forall₂_map
    {α β : Type} {relation : α → β → Prop} (changeLeft : α → α)
    (changeRight : β → β)
    (keeps : ∀ left right,
      relation left right → relation (changeLeft left) (changeRight right))
    {lefts : List α} {rights : List β}
    (related : lefts.Forall₂ relation rights) :
    (lefts.map changeLeft).Forall₂ relation (rights.map changeRight) := by
  induction related with
  | nil => exact .nil
  | cons first _ induction => exact .cons (keeps _ _ first) induction

theorem get?_redactFields (members : Members) (key : String) :
    (redactFields members).get? key =
      (if key != "metadata" then members.get? key else none).map
        (redactField key) := by
  have kept := Members.get?_filter (fun key => key != "metadata") members key
  rw [redactFields, Members.get?_map, kept]

theorem SpecMembers.redacted
    {members : Members} {spec : Spec} (document : SpecMembers members spec) :
    SpecDocument (redact (.object members)) spec.redacted := by
  obtain ⟨description, descriptionAt, given⟩ := document.descriptionAt
  obtain ⟨items, inputsAt, inputDocuments⟩ := document.inputsAt
  obtain ⟨tree, workflowAt, treeDocument⟩ := document.workflowAt
  have inputNames :
      spec.redacted.inputs.map Input.name = spec.inputs.map Input.name := by
    simp [Spec.redacted, Input.redacted]
  have outputNames : spec.redacted.outputs.map Output.name =
      spec.outputs.map Output.name := by
    simp [Spec.redacted, Output.redacted]
  refine ⟨_, rfl, {
    nameAt := by
      rw [get?_redactFields]
      exact congrArg (Option.map (redactField "name")) document.nameAt
    name := document.name
    descriptionAt := ⟨description, ?_, given⟩
    versionAt := by
      rw [get?_redactFields]
      exact congrArg (Option.map (redactField "version")) document.versionAt
    version := document.version
    inputsAt := ⟨items.map redactInput, ?_,
      forall₂_map _ _ (fun _ _ => InputDocument.redacted) inputDocuments⟩
    inputs := inputNames ▸ document.inputs
    outputsAt := ?_
    outputs := outputNames ▸ document.outputs
    metadataAt := .inr ⟨rfl, .inl ?_⟩
    workflowAt := ⟨redactNode tree, ?_, treeDocument.redacted⟩ }⟩
  · cases description with
    | some text =>
        simp only [OptionalText, get?_redactFields]
        exact congrArg (Option.map (redactField "description")) descriptionAt
    | none =>
        simp only [OptionalText, get?_redactFields]
        exact descriptionAt.imp
          (congrArg (Option.map (redactField "description")))
          (congrArg (Option.map (redactField "description")))
  · rw [get?_redactFields]
    exact congrArg (Option.map (redactField "inputs")) inputsAt
  · rcases document.outputsAt with
      ⟨outputs, outputsAt, outputDocuments⟩ | ⟨empty, absent⟩
    · refine .inl ⟨outputs.map redactOutput, ?_,
        forall₂_map _ _ (fun _ _ => OutputDocument.redacted) outputDocuments⟩
      rw [get?_redactFields]
      exact congrArg (Option.map (redactField "outputs")) outputsAt
    · refine .inr ⟨by simp [Spec.redacted, empty], ?_⟩
      rw [get?_redactFields]
      exact absent.imp (congrArg (Option.map (redactField "outputs")))
        (congrArg (Option.map (redactField "outputs")))
  · rw [get?_redactFields]
    rfl
  · rw [get?_redactFields]
    exact congrArg (Option.map (redactField "workflow")) workflowAt

end Document

/-- A redacted value is a literal credential without references; any other is
left alone. -/
theorem redactParam_cases (name : String) {value : Value}
    (templates : ∃ references, value.references = .ok references) :
    redactParam name value = value ∨
      isSecretName name = true ∧ value.isNull = false ∧
      value.references = .ok [] ∧
        redactParam name value = .string "" := by
  unfold redactParam
  split
  · rename_i literal
    simp only [isLiteralCredential, Bool.and_eq_true, Bool.not_eq_true',
      List.isEmpty_iff] at literal
    obtain ⟨references, found⟩ := templates
    have none : references = [] :=
      (Value.references_eq_ok found).trans literal.2
    exact .inr ⟨literal.1.1, literal.1.2, none ▸ found, rfl⟩
  · exact .inl rfl

theorem Scope.checkParams_redacted
    (scope : Scope) (path : Path) {call : ToolCall} (lawful : call.Lawful) :
    scope.checkParams path call.redacted.params =
      scope.checkParams path call.params := by
  simp only [checkParams, ToolCall.redacted, List.flatMap_map]
  apply List.flatMap_congr
  intro param member
  rcases redactParam_cases param.1 (lawful.params param member).2 with
    same | ⟨_, _, literal, redacted⟩
  · rw [same]
  · rw [redacted, literal]
    rfl

namespace Node

mutual

theorem calls_redacted (node : Node) :
    node.redacted.calls = node.calls.map ToolCall.redacted := by
  cases node with
  | call invocation => rfl
  | sequence steps => exact callsList_redacted steps
  | branch condition whenTrue otherwise =>
      cases otherwise with
      | none => exact calls_redacted whenTrue
      | some otherwise =>
          simp only [redacted, calls, calls_redacted whenTrue,
            calls_redacted otherwise, List.map_append]
  | fanout branches join => exact callsList_redacted branches
  | dispatch routes rules fallback => exact callsRoutes_redacted routes

theorem callsList_redacted (nodes : List Node) :
    callsList (redactedList nodes) =
      (callsList nodes).map ToolCall.redacted := by
  cases nodes with
  | nil => rfl
  | cons node rest =>
      simp only [redactedList, callsList, calls_redacted node,
        callsList_redacted rest, List.map_append]

theorem callsRoutes_redacted (routes : List (String × Node)) :
    callsRoutes (redactedRoutes routes) =
      (callsRoutes routes).map ToolCall.redacted := by
  cases routes with
  | nil => rfl
  | cons route rest =>
      simp only [redactedRoutes, callsRoutes, calls_redacted route.2,
        callsRoutes_redacted rest, List.map_append]

end

mutual

theorem visit_redacted (limits : Limits) (path : Path) (depth : Nat)
    (node : Node) (checker : Checker) :
    limits.visit path depth node.redacted checker =
      limits.visit path depth node checker := by
  cases node with
  | call invocation => rfl
  | sequence steps =>
      simp only [redacted, Limits.visit, length_redactedList,
        visitList_redacted limits path "steps" 0 (depth + 1) steps]
  | branch condition whenTrue otherwise =>
      have first :=
        visit_redacted limits (.field path "if_true") (depth + 1) whenTrue
      cases otherwise with
      | none => simp only [redacted, Limits.visit, first]
      | some otherwise =>
          simp only [redacted, Limits.visit, first,
            visit_redacted limits (.field path "if_false") (depth + 1)
              otherwise]
  | fanout branches join =>
      simp only [redacted, Limits.visit, length_redactedList,
        visitList_redacted limits path "branches" 0 (depth + 1) branches]
  | dispatch routes rules fallback =>
      simp only [redacted, Limits.visit,
        visitRoutes_redacted limits (.field path "sub_workflows") (depth + 1)
          routes]

theorem visitList_redacted (limits : Limits) (path : Path) (key : String)
    (position depth : Nat) (nodes : List Node) (checker : Checker) :
    Limits.visitList limits path key position depth (redactedList nodes)
        checker =
      Limits.visitList limits path key position depth nodes checker := by
  cases nodes with
  | nil => rfl
  | cons node rest =>
      simp only [redactedList, Limits.visitList,
        visit_redacted limits (path.item key position) depth node,
        visitList_redacted limits path key (position + 1) depth rest]

theorem visitRoutes_redacted (limits : Limits) (path : Path) (depth : Nat)
    (routes : List (String × Node)) (checker : Checker) :
    Limits.visitRoutes limits path depth (redactedRoutes routes) checker =
      Limits.visitRoutes limits path depth routes checker := by
  cases routes with
  | nil => rfl
  | cons route rest =>
      simp only [redactedRoutes, Limits.visitRoutes,
        visit_redacted limits (.field path route.1) depth route.2,
        visitRoutes_redacted limits path depth rest]

end

mutual

theorem flow_redacted
    (scope : Scope) (path : Path) {node : Node} (lawful : node.Lawful) :
    node.redacted.flow scope path = node.flow scope path := by
  cases node with
  | call invocation =>
      simp only [redacted, flow,
        scope.checkParams_redacted (.field path "params") lawful]
      rfl
  | sequence steps => exact flowSteps_redacted scope path 0 lawful.2
  | branch condition whenTrue otherwise =>
      cases otherwise with
      | none =>
          simp only [redacted, flow,
            flow_redacted scope (.field path "if_true") lawful.2]
      | some otherwise =>
          simp only [redacted, flow,
            flow_redacted scope (.field path "if_true") lawful.2.1,
            flow_redacted scope (.field path "if_false") lawful.2.2]
  | fanout branches join =>
      simp only [redacted, flow, flowBranches_redacted scope path 0 lawful.2]
  | dispatch routes rules fallback =>
      simp only [redacted, flow,
        flowRoutes_redacted scope (.field path "sub_workflows") lawful.2.2.1]

theorem flowSteps_redacted
    (scope : Scope) (path : Path) (position : Nat) {steps : List Node}
    (lawful : LawfulList steps) :
    flowSteps scope path position (redactedList steps) =
      flowSteps scope path position steps := by
  cases steps with
  | nil => rfl
  | cons node rest =>
      simp only [redactedList, flowSteps,
        flow_redacted scope (path.item "steps" position) lawful.1,
        flowSteps_redacted _ path (position + 1) lawful.2]

theorem flowBranches_redacted (scope : Scope) (path : Path) (position : Nat)
    {branches : List Node} (lawful : LawfulList branches) :
    flowBranches scope path position (redactedList branches) =
      flowBranches scope path position branches := by
  cases branches with
  | nil => rfl
  | cons node rest =>
      simp only [redactedList, flowBranches,
        flow_redacted scope (path.item "branches" position) lawful.1,
        flowBranches_redacted scope path (position + 1) lawful.2]

theorem flowRoutes_redacted
    (scope : Scope) (path : Path) {routes : List (String × Node)}
    (lawful : LawfulRoutes routes) :
    flowRoutes scope path (redactedRoutes routes) =
      flowRoutes scope path routes := by
  cases routes with
  | nil => rfl
  | cons route rest =>
      simp only [redactedRoutes, flowRoutes,
        flow_redacted scope (.field path route.1) lawful.2.1,
        flowRoutes_redacted scope path lawful.2.2]

end

end Node

theorem Spec.issues_redacted
    {spec : Spec} (lawful : spec.workflow.Lawful) (limits : Limits) :
    spec.redacted.issues limits = spec.issues limits := by
  have names : (spec.inputs.map Input.redacted).map Input.name =
      spec.inputs.map Input.name := by
    simp [Input.redacted]
  simp only [Spec.issues, Spec.analyze, Node.analyze, Spec.redacted,
    Limits.violations, names, Node.visit_redacted,
    Node.flow_redacted _ _ lawful]

end Workflow
