import Workflow.Compile
import Workflow.Proofs.Program.EnvironmentReads

/-!
# Programs read the credentials that they announce

A program gets credentials from the environment in its tool functions, in its
calls, in its entry point and in its example of use.  Every one of these places
finds out on its own which names are credentials, and what a program announces
is collected apart from them.  All of them agree: what is read is announced,
every secret input is read, and a placeholder guards what its tool is called
with.
-/

namespace Workflow

/-- Capitals can be undone: there are none in an identifier. -/
theorem toLower_toUpper {c : Char} (part : Identifier.isPart c = true) :
    c.toUpper.toLower = c := by
  have ascii : c.toNat < 128 := by
    have range :=
      Reference.toNat_of_isFieldChar (Reference.isFieldChar_of_isRootPart part)
    omega
  have undone : ∀ code < 128, Identifier.isPart (Char.ofNat code) = true →
      (Char.ofNat code).toUpper.toLower = Char.ofNat code := by
    decide +kernel
  have ofCode := undone c.toNat ascii
  rw [Char.ofNat_toNat] at ofCode
  exact ofCode part

theorem map_toLower_environmentVariable
    {name : String} (identifier : isIdentifier name = true) :
    (environmentVariable name).toList.map Char.toLower = name.toList := by
  have undone : ∀ c ∈ name.toList, (Char.toLower ∘ Char.toUpper) c = id c := by
    intro c member
    exact toLower_toUpper (Program.isPart_of_isIdentifier identifier member)
  rw [environmentVariable, String.toList_ofList, List.map_map,
    List.map_congr_left undone, List.map_id]

/-- Two names are read from two variables. -/
theorem environmentVariable_injective
    {first second : String} (ofFirst : isIdentifier first = true)
    (ofSecond : isIdentifier second = true)
    (same : environmentVariable first = environmentVariable second) :
    first = second := by
  rw [← String.toList_inj, ← map_toLower_environmentVariable ofFirst, same,
    map_toLower_environmentVariable ofSecond]

theorem Node.mem_credentials {node : Node} {tool name : String} :
    name ∈ node.credentials tool ↔
      ∃ call ∈ node.calls, call.tool = tool ∧ name ∈ call.params.keys ∧
        isSecretName name = true := by
  simp only [credentials, NameSet.mem_ofList, List.mem_flatMap,
    List.mem_filter, beq_iff_eq, ToolCall.secretParams]
  constructor
  · rintro ⟨call, ⟨isCall, isTool⟩, isKey, secret⟩
    exact ⟨call, isCall, isTool, isKey, secret⟩
  · rintro ⟨call, isCall, isTool, isKey, secret⟩
    exact ⟨call, ⟨isCall, isTool⟩, isKey, secret⟩

namespace Spec

variable {spec : Spec} {name : String}

theorem mem_secretInputs : name ∈ spec.secretInputs ↔
    ∃ input ∈ spec.inputs, input.isSecret = true ∧ input.name = name := by
  simp only [secretInputs, NameSet.mem_ofList, List.mem_map, List.mem_filter,
    and_assoc]

theorem mem_allCredentials : name ∈ spec.workflow.allCredentials ↔
    ∃ tool ∈ spec.toolNames, name ∈ spec.workflow.credentials tool := by
  simp only [Node.mem_credentials, Node.allCredentials, toolNames,
    NameSet.mem_ofList, List.mem_flatMap, List.mem_map, ToolCall.secretParams,
    List.mem_filter]
  constructor
  · rintro ⟨call, isCall, secret⟩
    exact ⟨call.tool, ⟨call, isCall, rfl⟩, call, isCall, rfl, secret⟩
  · rintro ⟨_, _, call, isCall, _, secret⟩
    exact ⟨call, isCall, secret⟩

/-- What is announced are the secret inputs and the credentials of all
tools. -/
theorem mem_secretParams : name ∈ spec.secretParams ↔
    (∃ input ∈ spec.inputs, input.isSecret = true ∧ input.name = name) ∨
      ∃ tool ∈ spec.toolNames, name ∈ spec.workflow.credentials tool := by
  rw [secretParams, NameSet.mem_union, mem_secretInputs, mem_allCredentials]

theorem isIdentifier_of_mem_secretParams
    {members : Members} (document : Document.SpecMembers members spec)
    (member : name ∈ spec.secretParams) :
    isIdentifier name = true := by
  obtain ⟨_, _, tree⟩ := document.workflowAt
  rcases mem_secretParams.mp member with
    ⟨input, isInput, _, rfl⟩ | ⟨tool, _, ofTool⟩
  · exact document.inputs.identifier _ (List.mem_map_of_mem isInput)
  · obtain ⟨call, isCall, _, isKey, _⟩ := Node.mem_credentials.mp ofTool
    obtain ⟨param, isParam, rfl⟩ := List.mem_map.mp isKey
    exact ((tree.lawful.calls call isCall).params param isParam).1

end Spec

namespace Program.Environment

open Code

theorem mem_secretNames {inputs : List Input} {name : String} :
    name ∈ secretNames inputs ↔
      ∃ input ∈ inputs, input.isSecret = true ∧ input.name = name := by
  simp only [secretNames, List.mem_map, List.mem_filter, and_assoc]

theorem mem_secretParams_of_mem_guarded
    {library : Library} {spec : Spec} {tool name : String}
    (isTool : tool ∈ spec.toolNames)
    (member : name ∈ guarded library spec.workflow.credentials tool) :
    name ∈ spec.secretParams := by
  unfold guarded at member
  split at member
  · cases member
  · exact Spec.mem_secretParams.mpr (.inr ⟨tool, isTool, member⟩)

theorem mem_secretParams_of_mem_literalSecrets
    {spec : Spec} {call : ToolCall} {name : String}
    (isCall : call ∈ spec.workflow.calls)
    (member : name ∈ call.literalSecrets) :
    name ∈ spec.secretParams := by
  obtain ⟨param, found, rfl⟩ := List.mem_map.mp member
  obtain ⟨isParam, literal⟩ := List.mem_filter.mp found
  have secret : isSecretName param.1 = true := by
    simp only [isLiteralSecret, Bool.and_eq_true] at literal
    exact literal.1.1
  have isTool : call.tool ∈ spec.toolNames :=
    NameSet.mem_ofList.mpr (List.mem_map_of_mem isCall)
  have isKey : param.1 ∈ call.params.keys := List.mem_map_of_mem isParam
  have ofTool : param.1 ∈ spec.workflow.credentials call.tool :=
    Node.mem_credentials.mpr ⟨call, isCall, rfl, isKey, secret⟩
  exact Spec.mem_secretParams.mpr (.inr ⟨call.tool, isTool, ofTool⟩)

theorem mem_secretParams_of_mem_programReads
    {library : Library} {spec : Spec} {name : String}
    (member : name ∈ programReads library spec) :
    name ∈ spec.secretParams := by
  have ofInput :
      name ∈ secretNames spec.inputs → name ∈ spec.secretParams := by
    intro isInput
    exact Spec.mem_secretParams.mpr (.inl (mem_secretNames.mp isInput))
  simp only [programReads, List.mem_append] at member
  rcases member with ((ofTools | ofCalls) | ofEntry) | ofUsage
  · obtain ⟨tool, isTool, asked⟩ := List.mem_flatMap.mp ofTools
    exact mem_secretParams_of_mem_guarded isTool asked
  · obtain ⟨call, isCall, literal⟩ := List.mem_flatMap.mp ofCalls
    exact mem_secretParams_of_mem_literalSecrets isCall literal
  · exact ofInput ofEntry
  · exact ofInput ofUsage

/-- The lines of the function of a tool. -/
def toolLines (program tool : String) : List (List Char) :=
  blockLines ("def tool_" ++ tool ++ "(**kwargs):").toList
    (Text.lines program.toList)

/-- The lines of the entry point. -/
def entryLines (program : String) : List (List Char) :=
  blockLines "def run_workflow(**inputs):".toList (Text.lines program.toList)

/-- The text of a program reads what the workflow announces.  The credentials
of a tool are an increasing list, so they are guarded in order and once
each. -/
structure Matches (library : Library) (spec : Spec) (program : String) :
    Prop where
  /-- All reads, in the order of the lines. -/
  listed : readsIn program = readsOf (programReads library spec)
  declared : ∀ asked ∈ readsIn program,
    ∃ name ∈ spec.secretParams, asked = some (environmentVariable name)
  distinct : ∀ first ∈ spec.secretParams, ∀ second ∈ spec.secretParams,
    environmentVariable first = environmentVariable second → first = second
  inputs : ∀ input ∈ spec.inputs, input.isSecret = true →
    some (environmentVariable input.name) ∈ (entryLines program).flatMap reads
  placeholders : ∀ tool ∈ spec.toolNames, library.get? tool = none →
    guards (toolLines program tool) =
      (spec.workflow.credentials tool).names.map environmentVariable
  implemented : ∀ tool ∈ spec.toolNames, library.get? tool ≠ none →
    guards (toolLines program tool) = []
  /-- The function of a tool reads only what it guards. -/
  guardedOnly : ∀ tool ∈ spec.toolNames,
    (toolLines program tool).flatMap reads =
      (guards (toolLines program tool)).map some
  credentials : ∀ tool name, name ∈ spec.workflow.credentials tool ↔
    ∃ call ∈ spec.workflow.calls, call.tool = tool ∧ name ∈ call.params.keys ∧
      isSecretName name = true
  announced : ∀ name, name ∈ spec.secretParams ↔
    (∃ input ∈ spec.inputs, input.isSecret = true ∧ input.name = name) ∨
      ∃ tool ∈ spec.toolNames, name ∈ spec.workflow.credentials tool

section

variable (library : Library) {members : Members} {spec : Spec}
  (document : Document.SpecMembers members spec)

include document

theorem flatMap_entryLines :
    (entryLines (renderAll 0 (wholeCode library spec))).flatMap reads =
      readsOf (secretNames spec.inputs) := by
  rw [entryLines, blockLines_entryPoint library document,
    flatMap_lines reads rfl reads_margin, gather_entryPoint]

theorem guards_toolLines {tool : String} (isTool : tool ∈ spec.toolNames) :
    guards (toolLines (renderAll 0 (wholeCode library spec)) tool) =
      (guarded library spec.workflow.credentials tool).map
        environmentVariable := by
  rw [toolLines, blockLines_toolFunction library document isTool,
    guards_toolFunction]

theorem flatMap_toolLines {tool : String} (isTool : tool ∈ spec.toolNames) :
    (toolLines (renderAll 0 (wholeCode library spec)) tool).flatMap reads =
      readsOf (guarded library spec.workflow.credentials tool) := by
  obtain ⟨_, _, tree⟩ := document.workflowAt
  have identifier := isIdentifier_of_mem_toolNames tree.lawful isTool
  rw [toolLines, blockLines_toolFunction library document isTool,
    flatMap_lines reads rfl reads_margin,
    gather_toolFunction library _ identifier]

theorem matches_wholeCode :
    Matches library spec (renderAll 0 (wholeCode library spec)) where
  listed := readsIn_wholeCode library document
  declared := by
    intro asked member
    rw [readsIn_wholeCode library document] at member
    obtain ⟨name, isRead, rfl⟩ := List.mem_map.mp member
    exact ⟨name, mem_secretParams_of_mem_programReads isRead, rfl⟩
  distinct := by
    intro first ofFirst second ofSecond
    exact environmentVariable_injective
      (Spec.isIdentifier_of_mem_secretParams document ofFirst)
      (Spec.isIdentifier_of_mem_secretParams document ofSecond)
  inputs := by
    intro input isInput secret
    rw [flatMap_entryLines library document]
    exact List.mem_map.mpr
      ⟨input.name, mem_secretNames.mpr ⟨input, isInput, secret, rfl⟩, rfl⟩
  placeholders := by
    intro tool isTool unknown
    rw [guards_toolLines library document isTool, guarded, unknown]
  implemented := by
    intro tool isTool known
    obtain ⟨implementation, found⟩ := Option.ne_none_iff_exists'.mp known
    rw [guards_toolLines library document isTool, guarded, found]
    rfl
  guardedOnly := by
    intro tool isTool
    rw [flatMap_toolLines library document isTool,
      guards_toolLines library document isTool, readsOf, List.map_map]
    rfl
  credentials := by
    intro tool name
    exact Node.mem_credentials
  announced := by
    intro name
    exact Spec.mem_secretParams

end

/-- What is emitted is the program and the announcement. -/
theorem eq_of_emit
    {config : Config} {accepted : Accepted} {codes : List Code}
    (written : code config.library accepted.spec = .ok codes)
    {compiled : Compiled} (emitted : config.emit accepted = .ok compiled) :
    compiled.source = renderAll 0 codes ∧
    compiled.secretParams = accepted.spec.secretParams := by
  rw [Config.emit, source, written] at emitted
  cases checked : selfCheck (renderAll 0 codes) accepted.spec.toolNames with
  | error defect =>
      simp only [checked] at emitted
      cases emitted
  | ok _ =>
      simp only [checked] at emitted
      cases emitted
      exact ⟨rfl, rfl⟩

theorem exists_emit
    (config : Config) {accepted : Accepted} {members : Members}
    (document : Document.SpecMembers members accepted.spec)
    (untripled : ∀ condition ∈ accepted.spec.workflow.conditions,
      Untripled condition.toList) :
    ∃ compiled, config.emit accepted = .ok compiled := by
  obtain ⟨codes, written, part⟩ :=
    exists_code config.library document untripled
  have passes := selfCheck_of_part part
  have isSource :
      source config.library accepted.spec = .ok (renderAll 0 codes) := by
    simp only [source, written, passes]
  rw [Config.emit, isSource]
  exact ⟨_, rfl⟩

/-- The program of an accepted document reads the credentials that are
announced with it. -/
theorem environment_matches_announcement
    {config : Config} {document : Value} {accepted : Accepted}
    (isAccepted : config.accept document = .ok accepted) :
    ∃ codes, code config.library accepted.spec = .ok codes ∧
      Matches config.library accepted.spec (renderAll 0 codes) ∧
      ∀ compiled, config.emit accepted = .ok compiled →
        compiled.source = renderAll 0 codes ∧
          compiled.secretParams = accepted.spec.secretParams := by
  have ofLimits : Document.accept config.limits document = .ok accepted := by
    unfold Config.accept at isAccepted
    split at isAccepted
    · cases isAccepted
    · rename_i found
      cases isAccepted
      exact found
  obtain ⟨⟨members, _, isDocument⟩, _⟩ :=
    Document.specDocument_of_accept ofLimits
  have written := code_eq_wholeCode config.library isDocument
  refine ⟨_, written, matches_wholeCode config.library isDocument, ?_⟩
  intro compiled emitted
  exact eq_of_emit written emitted

/-- A call that hands a secret input on as a credential. -/
def signCall : ToolCall :=
  ⟨"sign", [("token", .string "\x7b\x7bdb_password\x7d\x7d")], none⟩

/-- A document with a secret input, a literal credential, and a credential of a
known tool. -/
def ledgerMembers : Members :=
  [("name", .string "ledger"), ("version", .string "1.0.0"),
    ("inputs", .array [
      .object [("name", .string "row"), ("type", .string "object")],
      .object [("name", .string "db_password"), ("type", .string "string")]]),
    ("workflow", visitSteps [reportDocument,
      .object [("type", .string "tool_call"), ("tool", .string "sign"),
        ("params", .object signCall.params)]])]

def ledgerSpec : Spec where
  name := "ledger"
  description := ""
  version := "1.0.0"
  inputs :=
    [⟨"row", .object, none, none⟩, ⟨"db_password", .string, none, none⟩]
  outputs := []
  workflow := .sequence [.call reportCall, .call signCall]
  metadata := []

def ledgerConfig : Config where
  limits := Limits.testing
  library := [("sign", ⟨"vault.keys", "sign"⟩)]

theorem specMembers_ledgerMembers :
    Document.SpecMembers ledgerMembers ledgerSpec where
  nameAt := rfl
  name := by decide +kernel
  descriptionAt := ⟨none, .inl rfl, rfl⟩
  versionAt := rfl
  version := by decide +kernel
  inputsAt := ⟨_, rfl, .cons ⟨_, rfl, rfl, rfl, .inl rfl, rfl⟩
    (.cons ⟨_, rfl, rfl, rfl, .inl rfl, rfl⟩ .nil)⟩
  inputs := ⟨by decide +kernel, by decide +kernel, by simp⟩
  outputsAt := .inr ⟨rfl, .inl rfl⟩
  outputs := Document.lawfulNames_nil
  metadataAt := .inr ⟨rfl, .inl rfl⟩
  workflowAt := by
    have sign : signCall.Lawful := by
      refine ⟨by decide +kernel, ?_, by simp [signCall]⟩
      simp only [signCall, List.forall_mem_singleton]
      exact ⟨by decide +kernel, [⟨"db_password", []⟩], by decide +kernel⟩
    exact ⟨_, rfl, nodeDocument_visitSteps (.cons nodeDocument_reportDocument
      (.cons (.call rfl rfl (.inl rfl) (.inl rfl) sign) .nil)) (by simp)⟩

theorem environment_matches_announcement_ledger :
    ∃ accepted compiled,
      ledgerConfig.accept (.object ledgerMembers) = .ok accepted ∧
      ledgerConfig.emit accepted = .ok compiled ∧
      Matches ledgerConfig.library accepted.spec compiled.source ∧
      compiled.secretParams.names = ["api_key", "db_password", "token"] ∧
      readsIn compiled.source =
        [some "API_KEY", some "API_KEY", some "DB_PASSWORD",
          some "DB_PASSWORD"] := by
  have admissible : ledgerSpec.Admissible Limits.testing := by
    unfold Spec.Admissible
    decide +kernel
  obtain ⟨accepted, ofLimits, isSpec⟩ :=
    Document.exists_accept_iff.mpr
      ⟨⟨_, rfl, specMembers_ledgerMembers⟩, admissible⟩
  have isAccepted :
      ledgerConfig.accept (.object ledgerMembers) = .ok accepted := by
    rw [Config.accept, ledgerConfig, ofLimits]
  obtain ⟨codes, written, isMatch, emits⟩ :=
    environment_matches_announcement isAccepted
  have isDocument : Document.SpecMembers ledgerMembers accepted.spec := by
    rw [isSpec]
    exact specMembers_ledgerMembers
  have noCondition : accepted.spec.workflow.conditions = [] := by
    rw [isSpec]
    rfl
  obtain ⟨compiled, emitted⟩ :=
    exists_emit ledgerConfig isDocument (by simp [noCondition])
  obtain ⟨isSource, secrets⟩ := emits compiled emitted
  refine ⟨accepted, compiled, isAccepted, emitted, ?_, ?_, ?_⟩
  · rw [isSource]
    exact isMatch
  · rw [secrets, isSpec]
    decide +kernel
  · rw [isSource, isMatch.listed, isSpec]
    decide +kernel

end Program.Environment

end Workflow
