import Workflow.Proofs.Document.Acceptance
import Workflow.Proofs.Value.RoundTrip
import Workflow.Spec.Canonical

/-!
# Canonical documents are accepted again

The document that stands for an accepted specification is a document of that
specification, and its text can be read whenever the original document could
have been written: it nests no deeper and holds no other numbers.
-/

namespace Workflow

open Document

theorem ToolCall.Lawful.nodeDocument {call : ToolCall} (lawful : call.Lawful) :
    NodeDocument call.toValue (.call call) := by
  obtain ⟨tool, params, output⟩ := call
  refine .call ?_ ?_ ?_ ?_ lawful
  · rfl
  · rfl
  · cases params with
    | nil => cases output <;> exact .inr ⟨rfl, .inl rfl⟩
    | cons param params => exact .inl rfl
  · cases output with
    | none => cases params <;> exact .inl rfl
    | some target => cases params <;> rfl

theorem ruleDocuments_toValue (rules : List Rule) :
    (rules.map Rule.toValue).Forall₂ RuleDocument rules := by
  induction rules with
  | nil => exact .nil
  | cons rule rules induction => exact .cons ⟨_, rfl, rfl, rfl⟩ induction

theorem dispatchDocument
    {entries : Members} {routes : List (String × Node)} {rules : List Rule}
    {fallback : Option String} (documents : RouteDocuments entries routes)
    (notEmpty : routes ≠ []) (increasing : Sorted.Increasing routes)
    (routing : LawfulRouting (routes.map Prod.fst) rules fallback) :
    NodeDocument (.object
        ([("type", .string "orchestrator"), ("sub_workflows", .object entries),
        ("rules", .array (rules.map Rule.toValue))] ++
        optionalMember "default" (fallback.map .string)))
          (.dispatch routes rules fallback) := by
  have sorted : Sorted.ofList routes = routes :=
    Sorted.ofList_of_increasing increasing
  rw [← sorted] at routing ⊢
  rw [sorted] at routing
  refine .dispatch rfl rfl documents notEmpty
    (.inl ⟨_, rfl, ruleDocuments_toValue rules⟩) ?_ routing
  cases fallback with
  | none => exact .inl rfl
  | some target => rfl

namespace Node

mutual

theorem Lawful.nodeDocument :
    {node : Node} → node.Lawful → NodeDocument node.toValue node
  | .call _, lawful => ToolCall.Lawful.nodeDocument lawful
  | .sequence _, ⟨notEmpty, steps⟩ =>
      .sequence rfl rfl (LawfulList.nodeDocuments steps) notEmpty
  | .branch _ _ none, ⟨accepted, whenTrue⟩ =>
      .branch rfl rfl accepted rfl whenTrue.nodeDocument (.inl rfl)
  | .branch _ _ (some _), ⟨accepted, whenTrue, otherwise⟩ =>
      .branchElse rfl rfl accepted rfl whenTrue.nodeDocument rfl
        otherwise.nodeDocument
  | .fanout _ _, ⟨several, branches⟩ =>
      .fanout rfl rfl (LawfulList.nodeDocuments branches) several rfl
  | .dispatch _ _ _, ⟨notEmpty, increasing, routes, routing⟩ =>
      dispatchDocument (LawfulRoutes.routeDocuments routes) notEmpty increasing
        routing

theorem LawfulList.nodeDocuments : {nodes : List Node} → LawfulList nodes →
    NodeDocuments (toValueList nodes) nodes
  | [], _ => .nil
  | _ :: _, ⟨first, rest⟩ =>
      .cons first.nodeDocument (LawfulList.nodeDocuments rest)

theorem LawfulRoutes.routeDocuments :
    {routes : List (String × Node)} → LawfulRoutes routes →
    RouteDocuments (toValueRoutes routes) routes
  | [], _ => .nil
  | (_, _) :: _, ⟨identifier, first, rest⟩ =>
      .cons identifier first.nodeDocument (LawfulRoutes.routeDocuments rest)

end

end Node

namespace Document

theorem sample?_ne_null (members : Members) :
    sample? members ≠ some .null := by
  unfold sample?
  split
  · simp
  · rename_i other
    exact other

theorem InputDocument.canonical
    {value : Value} {input : Input} (document : InputDocument value input) :
    InputDocument input.toValue input := by
  obtain ⟨members, rfl, nameAt, typeAt, descriptionAt, sample⟩ := document
  have notNull : input.example? ≠ some .null :=
    sample ▸ sample?_ne_null members
  obtain ⟨name, type, description, given⟩ := input
  refine ⟨_, rfl, rfl, rfl, ?_, ?_⟩
  · cases description with
    | none => cases given <;> exact .inl rfl
    | some text => rfl
  · cases given with
    | none => cases description <;> rfl
    | some value =>
        have kept : ∀ members : Members, members.get? "example" = some value →
            some value = sample? members := by
          intro members found
          unfold sample?
          split
          · rename_i null
            exact absurd (found.symm.trans null) notNull
          · exact found.symm
        cases description <;> exact kept _ rfl

theorem OutputDocument.canonical (output : Output) :
    OutputDocument output.toValue output := by
  obtain ⟨name, type, description⟩ := output
  refine ⟨_, rfl, rfl, rfl, ?_⟩
  cases description with
  | none => exact .inl rfl
  | some text => rfl

theorem inputDocuments_canonical {values : List Value} {inputs : List Input}
    (documents : values.Forall₂ InputDocument inputs) :
    (inputs.map Input.toValue).Forall₂ InputDocument inputs := by
  induction documents with
  | nil => exact .nil
  | cons document _ induction => exact .cons document.canonical induction

theorem outputDocuments_canonical (outputs : List Output) :
    (outputs.map Output.toValue).Forall₂ OutputDocument outputs := by
  induction outputs with
  | nil => exact .nil
  | cons output outputs induction => exact .cons (.canonical output) induction

theorem MetadataAt.sorted
    {members metadata : Members} (metadataAt : MetadataAt members metadata) :
    Sorted.ofList metadata = metadata := by
  rcases metadataAt with ⟨entries, _, rfl⟩ | ⟨rfl, _⟩
  · exact Sorted.ofList_of_increasing (Sorted.increasing_ofList entries)
  · rfl

/-- The canonical document of an accepted specification is a document of it. -/
theorem SpecMembers.canonical
    {members : Members} {spec : Spec} (document : SpecMembers members spec) :
    SpecDocument spec.toValue spec := by
  obtain ⟨items, _, inputs⟩ := document.inputsAt
  obtain ⟨value, _, workflow⟩ := document.workflowAt
  refine ⟨_, rfl, ?_⟩
  exact {
    nameAt := rfl
    name := document.name
    descriptionAt := ⟨some spec.description, rfl, rfl⟩
    versionAt := rfl
    version := document.version
    inputsAt := ⟨_, rfl, inputDocuments_canonical inputs⟩
    inputs := document.inputs
    outputsAt := .inl ⟨_, rfl, outputDocuments_canonical spec.outputs⟩
    outputs := document.outputs
    metadataAt := .inl ⟨_, rfl, document.metadataAt.sorted.symm⟩
    workflowAt := ⟨_, rfl, workflow.lawful.nodeDocument⟩ }

end Document

namespace Value

/-- A value whose text can be read where containers may nest this deep. -/
structure Readable (limit : Nat) (value : Value) : Prop where
  faithful : value.Faithful
  shallow : value.depth ≤ limit

variable {limit : Nat}

@[simp] theorem readable_string {text : String} :
    Readable limit (.string text) :=
  ⟨trivial, Nat.zero_le _⟩

theorem depthList_le {items : List Value} :
    depthList items ≤ limit ↔ ∀ item ∈ items, item.depth ≤ limit := by
  induction items with
  | nil => simp [depthList]
  | cons item rest induction => simp [depthList, induction]

theorem depthMembers_le {members : Members} :
    depthMembers members ≤ limit ↔
      ∀ member ∈ members, member.2.depth ≤ limit := by
  induction members with
  | nil => simp [depthMembers]
  | cons member rest induction => simp [depthMembers, induction]

theorem readable_array {items : List Value} :
    Readable (limit + 1) (.array items) ↔
      ∀ item ∈ items, item.Readable limit := by
  constructor
  · rintro ⟨faithful, shallow⟩ item member
    rw [depth, Nat.add_le_add_iff_right, depthList_le] at shallow
    exact ⟨faithfulList_iff.mp faithful item member, shallow item member⟩
  · intro each
    refine ⟨faithfulList_iff.mpr fun item member =>
        (each item member).faithful, ?_⟩
    rw [depth, Nat.add_le_add_iff_right, depthList_le]
    exact fun item member => (each item member).shallow

theorem readable_object {members : Members} :
    Readable (limit + 1) (.object members) ↔
      (members.map Prod.fst).Nodup ∧
      ∀ member ∈ members, member.2.Readable limit := by
  constructor
  · rintro ⟨⟨distinct, faithful⟩, shallow⟩
    rw [depth, Nat.add_le_add_iff_right, depthMembers_le] at shallow
    exact ⟨distinct, fun member inMembers =>
      ⟨faithfulMembers_iff.mp faithful member inMembers,
        shallow member inMembers⟩⟩
  · rintro ⟨distinct, each⟩
    refine ⟨⟨distinct, faithfulMembers_iff.mpr fun member inMembers =>
      (each member inMembers).faithful⟩, ?_⟩
    rw [depth, Nat.add_le_add_iff_right, depthMembers_le]
    exact fun member inMembers => (each member inMembers).shallow

theorem Readable.positive_of_array
    {items : List Value} (readable : Readable limit (.array items)) :
    ∃ below, limit = below + 1 := by
  have shallow := readable.shallow
  rw [depth] at shallow
  exact ⟨limit - 1, by omega⟩

theorem Readable.positive_of_object
    {members : Members} (readable : Readable limit (.object members)) :
    ∃ below, limit = below + 1 := by
  have shallow := readable.shallow
  rw [depth] at shallow
  exact ⟨limit - 1, by omega⟩

theorem Readable.get?
    {members : Members} (readable : Readable (limit + 1) (.object members))
    {key : String} {value : Value} (found : members.get? key = some value) :
    value.Readable limit := by
  obtain ⟨before, behind, rfl, _⟩ := List.lookup_eq_some_iff.mp found
  exact (readable_object.mp readable).2 (key, value) (by simp)

/-- Members that are there only at times keep an object readable. -/
theorem readable_append_optionalMember
    {members : Members} {key : String} {value? : Option Value}
    (readable : Readable (limit + 1) (.object members))
    (fresh : key ∉ members.map Prod.fst)
    (present : ∀ value ∈ value?, value.Readable limit) :
    Readable (limit + 1) (.object (members ++ optionalMember key value?)) := by
  obtain ⟨distinct, each⟩ := readable_object.mp readable
  cases value? with
  | none => simpa [optionalMember] using readable
  | some value =>
      refine readable_object.mpr ⟨?_, ?_⟩
      · rw [optionalMember, List.map_append]
        exact List.nodup_append.mpr ⟨distinct, by simp, by
          rintro name inMembers _ (_ | ⟨_, ⟨⟩⟩) rfl
          exact fresh inMembers⟩
      · intro member inMembers
        rcases List.mem_append.mp inMembers with old | new
        · exact each member old
        · obtain rfl := List.mem_singleton.mp new
          exact present value rfl

end Value

open Value
  (Readable readable_array readable_object readable_append_optionalMember)

namespace Document

variable {limit : Nat}

theorem readable_call
    {members params : Members} {tool : String} {output : Option String}
    (readable : Readable (limit + 1) (.object members))
    (paramsAt : ParamsAt members params) :
    Readable (limit + 1) (ToolCall.toValue ⟨tool, params, output⟩) := by
  have start : Readable (limit + 1)
      (.object [("type", .string "tool_call"), ("tool", .string tool)]) :=
    readable_object.mpr ⟨by simp, by simp⟩
  apply readable_append_optionalMember
  · apply readable_append_optionalMember start (by simp)
    intro value isParams
    rcases paramsAt with present | ⟨rfl, _⟩
    · split at isParams
      · cases isParams
      · cases isParams
        exact readable.get? present
    · cases isParams
  · simp only [optionalMember]
    split <;> simp
  · cases output <;> simp

theorem readable_rules {rules : List Rule} (two : 2 ≤ limit) :
    Readable limit (.array (rules.map Rule.toValue)) := by
  obtain ⟨below, rfl⟩ : ∃ below, limit = below + 1 + 1 := ⟨limit - 2, by omega⟩
  apply readable_array.mpr
  intro value member
  obtain ⟨rule, _, rfl⟩ := List.mem_map.mp member
  exact readable_object.mpr ⟨by simp, by simp⟩

theorem NodeDocument.positive
    {value : Value} {node : Node} (document : NodeDocument value node)
    (readable : value.Readable limit) :
    ∃ below, limit = below + 1 := by
  cases document <;> exact readable.positive_of_object

theorem toValueRoutes_eq_map (routes : List (String × Node)) :
    Node.toValueRoutes routes =
      routes.map fun route => (route.1, route.2.toValue) := by
  induction routes with
  | nil => rfl
  | cons route routes induction =>
      rw [Node.toValueRoutes, induction, List.map_cons]

theorem nodup_of_increasing
    {α : Type} {entries : List (String × α)}
    (increasing : Sorted.Increasing entries) :
    (entries.map Prod.fst).Nodup := by
  rw [List.Nodup, List.pairwise_map]
  exact increasing.imp fun below same =>
    absurd (same ▸ below) (String.lt_irrefl _)

theorem one_le_depth_toValue (node : Node) : 1 ≤ node.toValue.depth := by
  match node with
  | .call _ => exact Nat.le_add_left 1 _
  | .sequence _ => exact Nat.le_add_left 1 _
  | .branch _ _ none => exact Nat.le_add_left 1 _
  | .branch _ _ (some _) => exact Nat.le_add_left 1 _
  | .fanout _ _ => exact Nat.le_add_left 1 _
  | .dispatch _ _ _ => exact Nat.le_add_left 1 _

theorem readable_dispatch {routes : List (String × Node)} {rules : List Rule}
    {fallback : Option String} (notEmpty : routes ≠ [])
    (each : ∀ route ∈ routes, route.2.toValue.Readable limit) :
    (Node.dispatch (Sorted.ofList routes) rules fallback).toValue.Readable
      (limit + 1 + 1) := by
  have sorted :
      Readable (limit + 1)
        (.object (Node.toValueRoutes (Sorted.ofList routes))) := by
    rw [toValueRoutes_eq_map]
    refine readable_object.mpr ⟨?_, ?_⟩
    · rw [List.map_map]
      exact nodup_of_increasing (Sorted.increasing_ofList routes)
    · intro entry member
      obtain ⟨route, isRoute, rfl⟩ := List.mem_map.mp member
      exact each route (Sorted.mem_of_mem_ofList isRoute)
  -- a route is an object itself, so there is room for the objects of the rules
  have room : 1 ≤ limit := by
    obtain ⟨route, _, rfl⟩ := List.exists_cons_of_ne_nil notEmpty
    exact Nat.le_trans (one_le_depth_toValue route.2)
      (each route List.mem_cons_self).shallow
  have rulesReadable :
      Readable (limit + 1) (.array (rules.map Rule.toValue)) :=
    readable_rules (by omega)
  have start : Readable (limit + 1 + 1)
      (.object [("type", .string "orchestrator"),
        ("sub_workflows", .object (Node.toValueRoutes (Sorted.ofList routes))),
        ("rules", .array (rules.map Rule.toValue))]) :=
    readable_object.mpr ⟨by simp, by simp [sorted, rulesReadable]⟩
  apply readable_append_optionalMember start (by simp)
  cases fallback <;> simp

mutual

/-- The canonical document of a tree is as readable as the document the tree
was read from. -/
theorem NodeDocument.readable {limit : Nat} {value : Value} {node : Node}
    (document : NodeDocument value node) (readable : value.Readable limit) :
    node.toValue.Readable limit := by
  obtain ⟨limit, rfl⟩ := document.positive readable
  match document with
  | .call _ _ paramsAt _ _ => exact readable_call readable paramsAt
  | .sequence _ stepsAt documents _ =>
      have steps := documents.readable (readable.get? stepsAt)
      exact readable_object.mpr ⟨by simp, by simp [steps]⟩
  | .branch _ _ _ trueAt document _ =>
      have whenTrue := document.readable (readable.get? trueAt)
      exact readable_object.mpr ⟨by simp, by simp [whenTrue]⟩
  | .branchElse _ _ _ trueAt document falseAt otherDocument =>
      have whenTrue := document.readable (readable.get? trueAt)
      have otherwise := otherDocument.readable (readable.get? falseAt)
      exact readable_object.mpr ⟨by simp, by simp [whenTrue, otherwise]⟩
  | .fanout _ branchesAt documents _ _ =>
      have branches := documents.readable (readable.get? branchesAt)
      exact readable_object.mpr ⟨by simp, by simp [branches]⟩
  | .dispatch _ routesAt documents notEmpty _ _ _ =>
      have entries := readable.get? routesAt
      obtain ⟨limit, rfl⟩ := entries.positive_of_object
      exact readable_dispatch notEmpty
        (documents.readable (readable_object.mp entries).2)

theorem NodeDocuments.readable
    {limit : Nat} {values : List Value} {nodes : List Node}
    (documents : NodeDocuments values nodes)
    (readable : Readable limit (.array values)) :
    Readable limit (.array (Node.toValueList nodes)) := by
  obtain ⟨limit, rfl⟩ := readable.positive_of_array
  match documents with
  | .nil => exact readable
  | .cons first rest =>
      obtain ⟨firstReadable, restReadable⟩ :=
        List.forall_mem_cons.mp (readable_array.mp readable)
      have nodes :=
        readable_array.mp (rest.readable (readable_array.mpr restReadable))
      exact readable_array.mpr
        (List.forall_mem_cons.mpr ⟨first.readable firstReadable, nodes⟩)

theorem RouteDocuments.readable
    {limit : Nat} {entries : Members} {routes : List (String × Node)}
    (documents : RouteDocuments entries routes)
    (readable : ∀ entry ∈ entries, entry.2.Readable limit) :
    ∀ route ∈ routes, route.2.toValue.Readable limit := by
  match documents with
  | .nil => exact nofun
  | .cons _ first rest =>
      obtain ⟨firstReadable, restReadable⟩ := List.forall_mem_cons.mp readable
      exact List.forall_mem_cons.mpr
        ⟨first.readable firstReadable, rest.readable restReadable⟩

end

theorem InputDocument.readable {value : Value} {input : Input}
    (document : InputDocument value input) (readable : value.Readable limit) :
    input.toValue.Readable limit := by
  obtain ⟨members, rfl, _, _, _, sample⟩ := document
  obtain ⟨limit, rfl⟩ := readable.positive_of_object
  have start : Readable (limit + 1)
      (.object
        [("name", .string input.name), ("type", .string input.type.text)]) :=
    readable_object.mpr ⟨by simp, by simp⟩
  apply readable_append_optionalMember
  · apply readable_append_optionalMember start (by simp)
    cases input.description <;> simp
  · cases input.description <;> simp [optionalMember]
  · intro value isExample
    apply readable.get?
    rw [sample] at isExample
    unfold sample? at isExample
    split at isExample
    · cases isExample
    · exact isExample

theorem OutputDocument.readable
    {value : Value} {output : Output} (document : OutputDocument value output)
    (readable : value.Readable limit) :
    output.toValue.Readable limit := by
  obtain ⟨members, rfl, _⟩ := document
  obtain ⟨limit, rfl⟩ := readable.positive_of_object
  have start : Readable (limit + 1)
      (.object
        [("name", .string output.name), ("type", .string output.type.text)]) :=
    readable_object.mpr ⟨by simp, by simp⟩
  apply readable_append_optionalMember start (by simp)
  cases output.description <;> simp

theorem readable_map
    {α : Type} (Document : Value → α → Prop) (toValue : α → Value)
    (each : ∀ {limit : Nat} {value : Value} {item : α}, Document value item →
      value.Readable limit → (toValue item).Readable limit)
    {values : List Value} {items : List α}
    (documents : values.Forall₂ Document items)
    (readable : Readable limit (.array values)) :
    Readable limit (.array (items.map toValue)) := by
  obtain ⟨limit, rfl⟩ := readable.positive_of_array
  induction documents with
  | nil => exact readable
  | cons document _ induction =>
      obtain ⟨first, rest⟩ :=
        List.forall_mem_cons.mp (readable_array.mp readable)
      have others := readable_array.mp (induction (readable_array.mpr rest))
      exact readable_array.mpr
        (List.forall_mem_cons.mpr ⟨each document first, others⟩)

/-- The canonical document of a specification is as readable as the document it
was read from. -/
theorem SpecMembers.readable
    {members : Members} {spec : Spec} (document : SpecMembers members spec)
    (readable : Readable limit (.object members)) :
    spec.toValue.Readable limit := by
  obtain ⟨limit, rfl⟩ := readable.positive_of_object
  obtain ⟨items, inputsAt, inputDocuments⟩ := document.inputsAt
  obtain ⟨value, workflowAt, tree⟩ := document.workflowAt
  have inputItems := readable.get? inputsAt
  have inputs :=
    readable_map InputDocument Input.toValue InputDocument.readable
      inputDocuments inputItems
  have workflow := tree.readable (readable.get? workflowAt)
  -- absent outputs and metadata are written as empty containers, for which the
  -- inputs leave room
  obtain ⟨limit, rfl⟩ := inputItems.positive_of_array
  have outputs :
      Readable (limit + 1) (.array (spec.outputs.map Output.toValue)) := by
    rcases document.outputsAt with
      ⟨items, outputsAt, outputDocuments⟩ | ⟨none, _⟩
    · exact readable_map OutputDocument Output.toValue OutputDocument.readable
        outputDocuments (readable.get? outputsAt)
    · rw [none]
      exact readable_array.mpr nofun
  have metadata : Readable (limit + 1) (.object spec.metadata) := by
    rcases document.metadataAt with ⟨entries, metadataAt, sorted⟩ | ⟨none, _⟩
    · have each := (readable_object.mp (readable.get? metadataAt)).2
      rw [sorted]
      refine readable_object.mpr
        ⟨nodup_of_increasing (Sorted.increasing_ofList entries), ?_⟩
      intro entry member
      exact each entry (Sorted.mem_of_mem_ofList member)
    · rw [none]
      exact readable_object.mpr ⟨.nil, nofun⟩
  exact readable_object.mpr
    ⟨by simp, by simp [inputs, outputs, workflow, metadata]⟩

/-- The canonical text of an accepted specification is read and accepted again,
under the same limits, and stands for the same specification. -/
theorem accept_canonical
    {limits : Limits} {document : Value} {accepted : Accepted}
    (faithful : document.Faithful)
    (shallow : document.depth ≤ Value.maxNesting)
    (isAccepted : accept limits document = .ok accepted) :
    ∃ reread again, Value.ofJson? accepted.spec.canonical = some reread ∧
      accept limits reread = .ok again ∧ again.spec = accepted.spec ∧
      again.spec.canonical = accepted.spec.canonical ∧
      again.spec.fingerprint = accepted.spec.fingerprint := by
  obtain ⟨⟨members, rfl, isDocument⟩, admissible⟩ :=
    specDocument_of_accept isAccepted
  have readable := isDocument.readable ⟨faithful, shallow⟩
  have reread :
      Value.ofJson? accepted.spec.canonical = some accepted.spec.toValue :=
    Value.ofJson?_pretty readable.faithful readable.shallow
  obtain ⟨again, acceptedAgain, same⟩ :=
    exists_accept_iff.mpr ⟨isDocument.canonical, admissible⟩
  exact ⟨accepted.spec.toValue, again, reread, acceptedAgain, same,
    by rw [same], by rw [same]⟩

/-- A call whose parameters hold a number with a fraction and a reference. -/
def archiveCall : ToolCall :=
  ⟨"archive", [("share", .number (.double ⟨false, 0x10000000000000, -53⟩)),
    ("api_key", .string "\x7b\x7btoken\x7d\x7d")], none⟩

/-- A document whose routes and metadata are in no canonical order. -/
def unsortedMembers : Members :=
  [("workflow", .object [
      ("default", .string "early"),
      ("sub_workflows", .object [
        ("late",
          .object [("tool", .string "archive"),
            ("params", .object archiveCall.params),
            ("type", .string "tool_call")]),
        ("early",
          .object [("type", .string "tool_call"), ("tool", .string "notify"),
            ("output", .null)])]),
      ("rules", .array [.object [("target", .string "late"),
        ("condition", .string "\x7b\x7bcount\x7d\x7d > 3")]]),
      ("type", .string "orchestrator")]),
    ("metadata",
      .object [("owner", .string "ops"), ("budget", .number (.integer (-7)))]),
    ("version", .string "1.0.0"),
    ("name", .string "nightly"),
    ("inputs", .array [
      .object [("name", .string "count"), ("type", .string "integer"),
        ("example", .null)],
      .object [("name", .string "token"), ("type", .string "string")]])]

/-- What that document means. -/
def sortedSpec : Spec where
  name := "nightly"
  description := ""
  version := "1.0.0"
  inputs := [⟨"count", .integer, none, none⟩, ⟨"token", .string, none, none⟩]
  outputs := []
  workflow := .dispatch
    (Sorted.ofList
      [("late", .call archiveCall), ("early", .call ⟨"notify", [], none⟩)])
    [⟨"\x7b\x7bcount\x7d\x7d > 3", "late"⟩] (some "early")
  metadata :=
    Sorted.ofList
      [("owner", .string "ops"), ("budget", .number (.integer (-7)))]

theorem specMembers_unsortedMembers :
    SpecMembers unsortedMembers sortedSpec where
  nameAt := rfl
  name := by decide +kernel
  descriptionAt := ⟨none, .inl rfl, rfl⟩
  versionAt := rfl
  version := by decide +kernel
  inputsAt := ⟨_, rfl, .cons ⟨_, rfl, rfl, rfl, .inl rfl, rfl⟩
    (.cons ⟨_, rfl, rfl, rfl, .inl rfl, rfl⟩ .nil)⟩
  inputs := ⟨by decide +kernel, by decide +kernel, nofun⟩
  outputsAt := .inr ⟨rfl, .inl rfl⟩
  outputs := lawfulNames_nil
  metadataAt := .inl ⟨_, rfl, rfl⟩
  workflowAt := by
    have archive : archiveCall.Lawful := by
      refine ⟨by decide +kernel, ?_, nofun⟩
      rintro param (_ | ⟨_, _ | ⟨_, ⟨⟩⟩⟩)
      · exact ⟨by decide +kernel, _, rfl⟩
      · exact ⟨by decide +kernel, [⟨"token", []⟩], by decide +kernel⟩
    have notify : ToolCall.Lawful ⟨"notify", [], none⟩ :=
      ⟨by decide +kernel, nofun, nofun⟩
    refine ⟨_, rfl, .dispatch rfl rfl
      (.cons (by decide +kernel) (.call rfl rfl (.inl rfl) (.inl rfl) archive)
        (.cons (by decide +kernel)
          (.call rfl rfl (.inr ⟨rfl, .inl rfl⟩) (.inr rfl) notify) .nil))
      (by simp) (.inl ⟨_, rfl, .cons ⟨_, rfl, rfl, rfl⟩ .nil⟩) rfl ?_⟩
    refine ⟨?_, ?_, .inl (by simp)⟩
    · rintro rule (_ | ⟨_, ⟨⟩⟩)
      exact ⟨by decide +kernel, by simp⟩
    · rintro target ⟨⟩
      simp

theorem accept_canonical_unsortedMembers :
    Value.Faithful (.object unsortedMembers) ∧
      Value.depth (.object unsortedMembers) ≤ Value.maxNesting ∧
      ∃ accepted,
        accept Limits.testing (.object unsortedMembers) = .ok accepted ∧
        ∃ reread again, Value.ofJson? accepted.spec.canonical = some reread ∧
          accept Limits.testing reread = .ok again ∧
          again.spec = accepted.spec ∧
          again.spec.canonical = accepted.spec.canonical ∧
          again.spec.fingerprint = accepted.spec.fingerprint := by
  have faithful : Value.Faithful (.object unsortedMembers) := by decide +kernel
  have shallow : Value.depth (.object unsortedMembers) ≤ Value.maxNesting := by
    decide +kernel
  have admissible : sortedSpec.Admissible Limits.testing := by
    unfold Spec.Admissible
    decide +kernel
  obtain ⟨accepted, isAccepted, _⟩ :=
    exists_accept_iff.mpr ⟨⟨_, rfl, specMembers_unsortedMembers⟩, admissible⟩
  exact ⟨faithful, shallow, accepted, isAccepted,
    accept_canonical faithful shallow isAccepted⟩

end Document

end Workflow
