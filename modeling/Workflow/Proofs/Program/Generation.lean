import Workflow.Proofs.Document.Acceptance
import Workflow.Proofs.Program.Functions

/-!
# Accepted workflows have programs

The parts of a program put together: for every accepted document whose
conditions hold no triple quotes, and whatever the library lists, a program is
written and passes its self-check.
-/

namespace Workflow

namespace Node

mutual

theorem Lawful.calls {node : Node} (lawful : node.Lawful) :
    ∀ call ∈ node.calls, call.Lawful := by
  match node with
  | .call invocation => exact List.forall_mem_singleton.mpr lawful
  | .sequence steps => exact LawfulList.calls lawful.2
  | .branch _ whenTrue none =>
      have ofTrue : ∀ call ∈ whenTrue.calls, call.Lawful :=
        Lawful.calls lawful.2
      exact ofTrue
  | .branch _ whenTrue (some otherwise) =>
      exact List.forall_mem_append.mpr
        ⟨Lawful.calls lawful.2.1, Lawful.calls lawful.2.2⟩
  | .fanout branches _ => exact LawfulList.calls lawful.2
  | .dispatch routes _ _ => exact LawfulRoutes.calls lawful.2.2.1

theorem LawfulList.calls {nodes : List Node} (lawful : LawfulList nodes) :
    ∀ call ∈ callsList nodes, call.Lawful := by
  match nodes with
  | [] => exact nofun
  | node :: rest =>
      exact List.forall_mem_append.mpr
        ⟨Lawful.calls lawful.1, LawfulList.calls lawful.2⟩

theorem LawfulRoutes.calls
    {routes : List (String × Node)} (lawful : LawfulRoutes routes) :
    ∀ call ∈ callsRoutes routes, call.Lawful := by
  match routes with
  | [] => exact nofun
  | (_, node) :: rest =>
      exact List.forall_mem_append.mpr
        ⟨Lawful.calls lawful.2.1, LawfulRoutes.calls lawful.2.2⟩

end

end Node

namespace Program

open SelfCheck Code

theorem isIdentifier_of_mem_toolNames
    {spec : Spec} (lawful : spec.workflow.Lawful) {tool : String}
    (member : tool ∈ spec.toolNames.names) :
    isIdentifier tool = true := by
  obtain ⟨call, isCall, rfl⟩ := List.mem_map.mp (NameSet.mem_ofList.mp member)
  exact (lawful.calls call isCall).tool

theorem part_tools
    (library : Library) {spec : Spec} (lawful : spec.workflow.Lawful) :
    Part (if spec.toolNames.isEmpty then []
      else toolFunctions library spec.workflow.credentials spec.toolNames ++
        gap)
      spec.toolNames.names 0 := by
  split
  · rename_i empty
    have none : spec.toolNames.names = [] := by
      simpa [NameSet.isEmpty] using empty
    rw [none]
    exact ⟨[], flow_nil 0, rfl, rfl⟩
  · have functions := part_toolFunctions library spec.workflow.credentials
      fun _ member => isIdentifier_of_mem_toolNames lawful member
    exact functions.behind part_gap

theorem part_tree
    {body : List Code}
    (regular : Regular (.block "def _workflow(ctx):" body)) :
    Part [.block "def _workflow(ctx):" body] [] 0 := by
  have part := part_of_regular regular
  have defines : ["def _workflow(ctx):".toList].filterMap toolOf? = [] ∧
      ["def _workflow(ctx):".toList].countP isEntry = 0 := by decide +kernel
  rw [opener, defines.1, defines.2] at part
  exact part

/-- All of a program in front of the function of the tree. -/
def beforeTree (library : Library) (spec : Spec) : List Code :=
  header spec ++ imports.map ofLine ++ [.blank] ++ constants spec ++ gap ++
    support.map ofLine ++ gap ++
    (if spec.toolNames.isEmpty then []
    else toolFunctions library spec.workflow.credentials spec.toolNames ++ gap)

theorem part_beforeTree (library : Library) {members : Members} {spec : Spec}
    (document : Document.SpecMembers members spec) :
    Part (beforeTree library spec) spec.toolNames.names 0 := by
  obtain ⟨_, _, tree⟩ := document.workflowAt
  have inputs : ∀ input ∈ spec.inputs, isIdentifier input.name = true :=
    fun input member =>
    document.inputs.identifier _ (List.mem_map_of_mem member)
  exact (((((((part_header document.name document.version inputs).before
    part_imports).before part_blank).before (part_constants spec)).before
      part_gap).before
    part_support).before part_gap).before (part_tools library tree.lawful)

theorem exists_code
    (library : Library) {members : Members} {spec : Spec}
    (document : Document.SpecMembers members spec)
    (untripled : ∀ condition ∈ spec.workflow.conditions,
      Untripled condition.toList) :
    ∃ codes,
      code library spec = .ok codes ∧ Part codes spec.toolNames.names 1 := by
  obtain ⟨_, _, tree⟩ := document.workflowAt
  obtain ⟨body, written, regular⟩ := exists_treeFunction tree.lawful untripled
  have front := part_beforeTree library document
  have entry :=
    ((front.behind (part_tree regular)).behind part_gap).append
      (part_entryPoint spec)
  rw [List.append_nil, Nat.zero_add] at entry
  refine ⟨_, ?_, (entry.behind part_gap).behind (part_usage spec)⟩
  simp only [code, written, ok_bind]
  rfl

theorem selfCheck_of_part
    {codes : List Code} {tools : NameSet} (part : Part codes tools.names 1) :
    selfCheck (renderAll 0 codes) tools = .ok () := by
  obtain ⟨statements, flow, defined, entries⟩ := part
  have lines : Text.lines (renderAll 0 codes).toList = linesAll 0 codes := by
    simpa [Text.lines, Text.linesFrom]
      using lines_renderAll 0 codes flow.tidy []
  rw [← lines] at flow
  exact selfCheck_eq_ok flow defined entries

/-- For an accepted document a program is written and passes its self-check,
whatever its texts are and whatever the library lists, as long as no condition
has three equal quotes in a row. -/
theorem source_of_accept
    {limits : Limits} {document : Value} {accepted : Accepted}
    (isAccepted : Document.accept limits document = .ok accepted)
    (untripled : ∀ condition ∈ accepted.spec.workflow.conditions,
      Untripled condition.toList) (library : Library) :
    ∃ codes, code library accepted.spec = .ok codes ∧
      selfCheck (renderAll 0 codes) accepted.spec.toolNames = .ok () ∧
      source library accepted.spec = .ok (renderAll 0 codes) := by
  obtain ⟨⟨members, _, isSpec⟩, _⟩ :=
    Document.specDocument_of_accept isAccepted
  obtain ⟨codes, written, part⟩ := exists_code library isSpec untripled
  have passes := selfCheck_of_part part
  refine ⟨codes, written, passes, ?_⟩
  simp only [source, written, passes]

/-- A document with quotes, brackets and line ends in its texts, and with a
reference between the quotes of a condition. -/
def quotingMembers : Members :=
  [("name", .string "quoting"), ("description", .string "say \"(\"\n''' #"),
    ("version", .string "1.0.0"),
    ("inputs",
      .array [.object [("name", .string "text"), ("type", .string "string"),
        ("example", .string "\"\"\"[")]]),
    ("workflow", .object [("type", .string "conditional"),
      ("condition", .string "\"\x7b\x7btext\x7d\x7d\" == '('"),
      ("if_true",
        .object [("type", .string "tool_call"), ("tool", .string "post"),
          ("params",
            .object [("body", .string "\x7b\x7btext\x7d\x7d: )")])])])]

/-- What that document means. -/
def quotingSpec : Spec where
  name := "quoting"
  description := "say \"(\"\n''' #"
  version := "1.0.0"
  inputs := [⟨"text", .string, none, some (.string "\"\"\"[")⟩]
  outputs := []
  workflow := .branch "\"\x7b\x7btext\x7d\x7d\" == '('"
    (.call ⟨"post", [("body", .string "\x7b\x7btext\x7d\x7d: )")], none⟩) none
  metadata := []

theorem specMembers_quotingMembers :
    Document.SpecMembers quotingMembers quotingSpec where
  nameAt := rfl
  name := by decide +kernel
  descriptionAt := ⟨some _, rfl, rfl⟩
  versionAt := rfl
  version := by decide +kernel
  inputsAt := ⟨_, rfl, .cons ⟨_, rfl, rfl, rfl, .inl rfl, rfl⟩ .nil⟩
  inputs := ⟨by decide +kernel, by decide +kernel, nofun⟩
  outputsAt := .inr ⟨rfl, .inl rfl⟩
  outputs := Document.lawfulNames_nil
  metadataAt := .inr ⟨rfl, .inl rfl⟩
  workflowAt := by
    have post :
        ToolCall.Lawful
          ⟨"post", [("body", .string "\x7b\x7btext\x7d\x7d: )")], none⟩ := by
      refine ⟨by decide +kernel, ?_, nofun⟩
      rintro param (_ | ⟨_, ⟨⟩⟩)
      exact ⟨by decide +kernel, [⟨"text", []⟩], by decide +kernel⟩
    exact ⟨_, rfl, .branch rfl rfl (by decide +kernel) rfl
      (.call rfl rfl (.inl rfl) (.inl rfl) post) (.inl rfl)⟩

theorem source_of_accept_quotingMembers :
    ∃ accepted,
      Document.accept Limits.testing (.object quotingMembers) = .ok accepted ∧
      (∀ condition ∈ accepted.spec.workflow.conditions,
        Untripled condition.toList) ∧
      ∃ codes, code [("post", ⟨"a\"", "b\n)"⟩)] accepted.spec = .ok codes ∧
        selfCheck (renderAll 0 codes) accepted.spec.toolNames = .ok () ∧
        source [("post", ⟨"a\"", "b\n)"⟩)] accepted.spec =
          .ok (renderAll 0 codes) := by
  have admissible : quotingSpec.Admissible Limits.testing := by
    unfold Spec.Admissible
    decide +kernel
  obtain ⟨accepted, isAccepted, isSpec⟩ :=
    Document.exists_accept_iff.mpr
      ⟨⟨_, rfl, specMembers_quotingMembers⟩, admissible⟩
  have untripled : ∀ condition ∈ accepted.spec.workflow.conditions,
      Untripled condition.toList := by
    have conditions : quotingSpec.workflow.conditions =
        ["\"\x7b\x7btext\x7d\x7d\" == '('"] := rfl
    rw [isSpec, conditions]
    simp only [Untripled, List.forall_mem_singleton, List.forall_mem_cons]
    exact ⟨by decide +kernel, by decide +kernel⟩
  exact ⟨accepted, isAccepted, untripled,
    source_of_accept isAccepted untripled _⟩

end Program

end Workflow
