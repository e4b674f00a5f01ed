import Workflow.Compile
import Workflow.Proofs.Document.Conformance
import Workflow.Proofs.Program.Generation
import Workflow.Proofs.Secret.Redaction

/-!
# Programs do not depend on secrets

Every part of a program is written the same for a specification and for its
redaction, apart from the fingerprint in the header, and the self-check does
not look into comments.  So accepted documents with the same redaction compile
to programs that differ in that one line.
-/

namespace Workflow

namespace Program

theorem argumentExpression_redacted {name : String} {value : Value}
    (templates : ∃ references, value.references = .ok references) :
    argumentExpression name (redactParam name value) =
      argumentExpression name value := by
  rcases redactParam_cases name templates with
    same | ⟨secret, notNull, literal, redacted⟩
  · rw [same]
  · have mark : (Value.string "").references = .ok [] := rfl
    have present : (Value.string "").isNull = false := rfl
    simp only [argumentExpression, redacted, mark, present, literal, secret,
      notNull]
    rfl

theorem argumentExpressions_redacted
    {params : Members}
    (templates : ∀ param ∈ params, ∃ references,
      param.2.references = .ok references) :
    argumentExpressions
      (params.map fun param => (param.1, redactParam param.1 param.2)) =
      argumentExpressions params := by
  induction params with
  | nil => rfl
  | cons param rest induction =>
      obtain ⟨first, others⟩ := List.forall_mem_cons.mp templates
      simp only [List.map_cons, argumentExpressions,
        argumentExpression_redacted first, induction others]

theorem callLine_redacted {call : ToolCall} (lawful : call.Lawful) :
    callLine call.redacted = callLine call := by
  have expressions := argumentExpressions_redacted fun param member =>
    (lawful.params param member).2
  simp only [callLine, callExpression, ToolCall.redacted, expressions]

theorem joinLine_redacted
    (number : Nat) (branches : List Node) (join : JoinPolicy) :
    joinLine number (Node.redactedList branches) join =
      joinLine number branches join := by
  have bound :
      boundNames (Node.redactedList branches) = boundNames branches := by
    rw [boundNames, boundNames, Node.callsList_redacted, List.filterMap_map]
    rfl
  simp only [joinLine, Node.length_redactedList, bound]

mutual

theorem treeCode_redacted (last : Nat) {node : Node} (lawful : node.Lawful) :
    treeCode last node.redacted = treeCode last node := by
  cases node with
  | call invocation =>
      simp only [Node.redacted, treeCode, callLine_redacted lawful]
  | sequence steps => exact stepCode_redacted last lawful.2
  | branch condition whenTrue otherwise =>
      cases otherwise with
      | none =>
          simp only [Node.redacted, treeCode, treeCode_redacted last lawful.2]
      | some otherwise =>
          simp only [Node.redacted, treeCode,
            treeCode_redacted last lawful.2.1, treeCode_redacted _ lawful.2.2]
  | fanout branches join =>
      simp only [Node.redacted, treeCode,
        unitCode_redacted (last + 1) (last + 1) 0 lawful.2, joinLine_redacted]
  | dispatch routes rules fallback =>
      simp only [Node.redacted, treeCode,
        routeCode_redacted (last + 1) (last + 1) lawful.2.2.1]

theorem stepCode_redacted
    (last : Nat) {steps : List Node} (lawful : Node.LawfulList steps) :
    stepCode last (Node.redactedList steps) = stepCode last steps := by
  cases steps with
  | nil => rfl
  | cons node rest =>
      simp only [Node.redactedList, stepCode, treeCode_redacted last lawful.1,
        stepCode_redacted _ lawful.2]

theorem unitCode_redacted (number last position : Nat) {branches : List Node}
    (lawful : Node.LawfulList branches) :
    unitCode number last position (Node.redactedList branches) =
      unitCode number last position branches := by
  cases branches with
  | nil => rfl
  | cons node rest =>
      simp only [Node.redactedList, unitCode, treeCode_redacted last lawful.1,
        unitCode_redacted number _ (position + 1) lawful.2]

theorem routeCode_redacted (number last : Nat) {routes : List (String × Node)}
    (lawful : Node.LawfulRoutes routes) :
    routeCode number last (Node.redactedRoutes routes) =
      routeCode number last routes := by
  cases routes with
  | nil => rfl
  | cons route rest =>
      simp only [Node.redactedRoutes, routeCode,
        treeCode_redacted last lawful.2.1,
        routeCode_redacted number _ lawful.2.2]

end

end Program

theorem ToolCall.secretParams_redacted (call : ToolCall) :
    call.redacted.secretParams = call.secretParams := by
  simp [ToolCall.secretParams, ToolCall.redacted, Members.keys,
    Function.comp_def]

theorem Node.credentials_redacted (node : Node) :
    node.redacted.credentials = node.credentials := by
  funext tool
  simp only [credentials, calls_redacted, List.filter_map, List.flatMap_map]
  simp only [ToolCall.secretParams_redacted]
  rfl

theorem Node.allCredentials_redacted (node : Node) :
    node.redacted.allCredentials = node.allCredentials := by
  simp only [allCredentials, calls_redacted, List.flatMap_map,
    ToolCall.secretParams_redacted]

namespace Spec

variable (spec : Spec)

theorem toolNames_redacted : spec.redacted.toolNames = spec.toolNames := by
  simp only [toolNames, redacted, Node.calls_redacted, List.map_map]
  rfl

theorem filter_isSecret_redacted :
    spec.redacted.inputs.filter Input.isSecret =
      (spec.inputs.filter Input.isSecret).map Input.redacted := by
  simp only [redacted, List.filter_map]
  rfl

theorem secretInputs_redacted :
    spec.redacted.secretInputs = spec.secretInputs := by
  simp only [secretInputs, filter_isSecret_redacted, List.map_map]
  rfl

theorem secretParams_redacted :
    spec.redacted.secretParams = spec.secretParams := by
  simp only [secretParams, secretInputs_redacted]
  simp only [redacted, Node.allCredentials_redacted]

end Spec

namespace Program

variable (spec : Spec)

theorem constants_redacted : constants spec.redacted = constants spec := by
  simp only [constants, Spec.redacted, List.map_map]
  rfl

theorem entryPoint_redacted : entryPoint spec.redacted = entryPoint spec := by
  simp only [entryPoint, Spec.filter_isSecret_redacted, List.map_map]
  rfl

theorem exampleExpression_redacted (input : Input) :
    exampleExpression input.redacted = exampleExpression input := by
  cases secret : input.isSecret with
  | true =>
      have same : input.redacted.isSecret = true := secret
      simp only [exampleExpression, secret, same, if_true]
      rfl
  | false =>
      have same : input.redacted.isSecret = false := secret
      have kept : input.redacted.example? = input.example? := by
        simp [Input.redacted, secret]
      simp only [exampleExpression, secret, same, kept]
      rfl

theorem usage_redacted : usage spec.redacted = usage spec := by
  simp only [usage, exampleInputs, Spec.redacted, List.isEmpty_map,
    List.map_map, Function.comp_def, exampleExpression_redacted]
  rfl

/-- All of a program behind the fingerprint in its header. -/
def behindFingerprint (library : Library) (spec : Spec) :
    Except TreeFault (List Code) := do
  let tools := spec.toolNames
  let secrets := spec.secretInputs.names.map environmentVariable
  let tree ← treeFunction spec.workflow
  return (if secrets.isEmpty then []
    else [.line ("# secrets are read from the environment: " ++
        Text.commaSeparated secrets)]) ++
    [.blank] ++ imports.map Code.ofLine ++ [.blank] ++ constants spec ++ gap ++
    support.map Code.ofLine ++ gap ++
    (if tools.isEmpty then []
    else toolFunctions library spec.workflow.credentials tools ++ gap) ++
    [tree] ++ gap ++ [entryPoint spec] ++ gap ++ [usage spec]

def generatedLine : String :=
  "# Generated by " ++ generator ++ ". Do not edit."

def workflowLine (spec : Spec) : String :=
  "# workflow: " ++ spec.name ++ " " ++ spec.version

def fingerprintLine (spec : Spec) : String :=
  "# spec-hash: " ++ spec.fingerprint

theorem workflowLine_redacted :
    workflowLine spec.redacted = workflowLine spec :=
  rfl

theorem code_eq (library : Library) :
    code library spec = (behindFingerprint library spec).map fun rest =>
      .line generatedLine :: .line (workflowLine spec) ::
        .line (fingerprintLine spec) :: rest := by
  unfold code behindFingerprint
  cases treeFunction spec.workflow with
  | error fault => rfl
  | ok tree =>
      simp only [ok_bind, header, List.append_assoc, List.cons_append,
        List.nil_append]
      rfl

theorem behindFingerprint_redacted (library : Library) {spec : Spec}
    (lawful : spec.workflow.Lawful) :
    behindFingerprint library spec.redacted =
      behindFingerprint library spec := by
  have tree :
      treeFunction spec.redacted.workflow = treeFunction spec.workflow := by
    simp only [treeFunction, Spec.redacted, treeCode_redacted 0 lawful]
  have credentials :
      spec.redacted.workflow.credentials = spec.workflow.credentials :=
    Node.credentials_redacted spec.workflow
  simp only [behindFingerprint, tree, credentials, Spec.toolNames_redacted,
    Spec.secretInputs_redacted, constants_redacted, entryPoint_redacted,
    usage_redacted]

open SelfCheck

/-- The lines of a text whose first line has a given number; all quotes and
brackets must match. -/
def lexFrom (number : Nat) (texts : List (List Char)) :
    Except Defect (List Line) := do
  let (lines, final) ← readLines number ⟨.code, []⟩ texts
  match final.brackets, final.mode with
  | (bracket, line) :: _, _ => throw (.neverClosed line bracket)
  | [], .code => return lines
  | [], _ => throw .openTripleQuote

def checkFrom (number : Nat) (texts : List (List Char)) (tools : NameSet) :
    Except Defect Unit := do
  let lines := (← lexFrom number texts).filter Line.startsStatement
  checkIndentation (lines.filter fun line => !(Text.trim line.text).isEmpty)
  checkDefinitions tools lines

theorem selfCheck_eq_checkFrom (source : String) (tools : NameSet) :
    selfCheck source tools = checkFrom 1 (Text.lines source.toList) tools :=
  rfl

theorem lexFrom_comment
    {number : Nat} {text : List Char} (noNul : '\x00' ∉ '#' :: text)
    (texts : List (List Char)) :
    lexFrom number (('#' :: text) :: texts) =
      (lexFrom (number + 1) texts).map (⟨number, '#' :: text, true⟩ :: ·) := by
  have read : readLine number ⟨.code, []⟩ ('#' :: text) = .ok ⟨.code, []⟩ := by
    rw [readLine_eq_readRest noNul, readRest_cons_of_step rfl,
      readRest_comment]
  unfold lexFrom
  simp only [readLines, read, ok_bind]
  cases readLines (number + 1) ⟨.code, []⟩ texts with
  | error defect => rfl
  | ok result =>
      obtain ⟨lines, mode, brackets⟩ := result
      cases brackets with
      | cons bracket outer => rfl
      | nil => cases mode <;> rfl

theorem checkIndentation_comment
    (number : Nat) (text : List Char) (lines : List Line) :
    checkIndentation (⟨number, '#' :: text, true⟩ :: lines) =
      checkIndentation lines := by
  have noBlank : ('#' :: text).takeWhile Text.isBlank = [] := rfl
  have noMargin : indentWidth ('#' :: text) = 0 := rfl
  simp only [checkIndentation, noBlank, noMargin, opensBlock_comment]
  rfl

theorem checkDefinitions_comment
    (tools : NameSet) (number : Nat) (text : List Char) (lines : List Line) :
    checkDefinitions tools (⟨number, '#' :: text, true⟩ :: lines) =
      checkDefinitions tools lines := by
  have noTool : definedTool? ⟨number, '#' :: text, true⟩ = none := rfl
  have noEntry : behind? "def run_workflow(" ('#' :: text) = none := rfl
  simp only [checkDefinitions, List.filterMap_cons, noTool, List.countP_cons,
    noEntry, Option.isSome_none, Bool.false_eq_true, if_false, Nat.add_zero]

theorem checkFrom_comment
    {number : Nat} {text : List Char} (noNul : '\x00' ∉ '#' :: text)
    (texts : List (List Char)) (tools : NameSet) :
    checkFrom number (('#' :: text) :: texts) tools =
      checkFrom (number + 1) texts tools := by
  have solid : (Text.trim ('#' :: text)).isEmpty = false := by
    have notBlank : Text.isBlank '#' = false := by decide
    have kept : Text.trimStart ('#' :: text) = '#' :: text := rfl
    simp [Text.trim, kept, Text.trimEnd, notBlank]
  simp only [checkFrom, lexFrom_comment noNul]
  cases lexFrom (number + 1) texts with
  | error defect => rfl
  | ok lines =>
      simp only [Except.map, ok_bind, List.filter_cons, if_true, solid,
        Bool.not_false, checkIndentation_comment, checkDefinitions_comment]

/-- A comment at the start of a text is its first line, and the self-check goes
on behind it. -/
theorem lines_comment
    {text : String} (printable : IsPrintable text) (codes : List Code) :
    Text.lines (Code.renderAll 0 (.line text :: codes)).toList =
      text.toList :: Text.lines (Code.renderAll 0 codes).toList := by
  have tidy : Code.Tidy ((Code.indentation 0).toList ++ text.toList) :=
    printable.tidy
  rw [Code.renderAll, Code.render, String.toList_append,
    Code.lines_renderLine tidy]
  rfl

variable {spec : Spec}

/-- The lines of a program whose header is printable. -/
theorem lines_code
    (workflow : IsPrintable (workflowLine spec)) (codes : List Code) :
    Text.lines
      (Code.renderAll 0 (.line generatedLine :: .line (workflowLine spec) ::
        .line (fingerprintLine spec) :: codes)).toList =
      generatedLine.toList :: (workflowLine spec).toList ::
        (fingerprintLine spec).toList ::
        Text.lines (Code.renderAll 0 codes).toList := by
  have generated : IsPrintable generatedLine := by decide
  have fingerprint : IsPrintable (fingerprintLine spec) :=
    .append (by decide) (isPrintable_fingerprint spec)
  rw [lines_comment generated, lines_comment workflow,
    lines_comment fingerprint]

theorem checkFrom_line
    {text : String} (printable : IsPrintable text)
    (starts : text.toList.head? = some '#') (number : Nat)
    (texts : List (List Char)) (tools : NameSet) :
    checkFrom number (text.toList :: texts) tools =
      checkFrom (number + 1) texts tools := by
  obtain ⟨rest, shape⟩ := List.head?_eq_some_iff.mp starts
  have noNul : '\x00' ∉ text.toList := printable.notMem (by decide)
  rw [shape] at noNul ⊢
  exact checkFrom_comment noNul texts tools

/-- The text of a program is its header and what is behind it, and only the
latter decides whether it passes its self-check. -/
theorem source_eq
    (library : Library) (workflow : IsPrintable (workflowLine spec)) :
    source library spec =
      match behindFingerprint library spec with
      | .error fault => .error (.tree fault)
      | .ok codes =>
          match checkFrom 4 (Text.lines (Code.renderAll 0 codes).toList)
            spec.toolNames with
          | .error defect => .error (.text defect)
          | .ok _ =>
              .ok (Code.renderAll 0
                  (.line generatedLine :: .line (workflowLine spec) ::
                    .line (fingerprintLine spec) :: codes)) := by
  have generated : IsPrintable generatedLine := by decide
  have fingerprint : IsPrintable (fingerprintLine spec) :=
    .append (by decide) (isPrintable_fingerprint spec)
  have generatedStart : generatedLine.toList.head? = some '#' := by
    unfold generatedLine
    simp
  have workflowStart : (workflowLine spec).toList.head? = some '#' := by
    unfold workflowLine
    simp
  have fingerprintStart : (fingerprintLine spec).toList.head? = some '#' := by
    unfold fingerprintLine
    simp
  rw [source, code_eq]
  cases behindFingerprint library spec with
  | error fault => rfl
  | ok codes =>
      simp only [Except.map, selfCheck_eq_checkFrom, lines_code workflow]
      rewrite [checkFrom_line generated generatedStart,
        checkFrom_line workflow workflowStart,
        checkFrom_line fingerprint fingerprintStart]
      rfl

end Program

namespace Document

theorem SpecDocument.isPrintable_workflowLine
    {document : Value} {spec : Spec} (isSpec : SpecDocument document spec) :
    Program.IsPrintable (Program.workflowLine spec) := by
  obtain ⟨_, _, ofMembers⟩ := isSpec
  have name := Program.isPrintable_of_isIdentifier ofMembers.name
  have version := Program.isPrintable_of_isVersion ofMembers.version
  exact .append (.append (.append (by decide) name) (by decide)) version

theorem SpecDocument.lawful
    {document : Value} {spec : Spec} (isSpec : SpecDocument document spec) :
    spec.workflow.Lawful := by
  obtain ⟨_, _, ofMembers⟩ := isSpec
  obtain ⟨_, _, tree⟩ := ofMembers.workflowAt
  exact tree.lawful

theorem SpecDocument.alike
    {left right : Value} {ofLeft ofRight : Spec}
    (isLeft : SpecDocument left ofLeft) (isRight : SpecDocument right ofRight)
    (same : redact left = redact right) :
    ofLeft.redacted = ofRight.redacted := by
  obtain ⟨leftMembers, rfl, leftDocument⟩ := isLeft
  obtain ⟨rightMembers, rfl, rightDocument⟩ := isRight
  apply leftDocument.redacted.unique
  rw [same]
  exact rightDocument.redacted

end Document

namespace Config

open Document

variable {document : Value} {spec : Spec}

theorem compile_of_admissible
    (config : Config) (isSpec : SpecDocument document spec)
    (admissible : spec.Admissible config.limits) :
    config.compile document =
      match Program.source config.library spec with
      | .error fault => .error (.generation fault.message)
      | .ok text =>
          .ok ⟨text, spec.secretParams, spec.toolNames, spec.fingerprint⟩ := by
  obtain ⟨accepted, isAccepted, rfl⟩ :=
    exists_accept_iff.mpr ⟨isSpec, admissible⟩
  simp only [compile, accept, isAccepted, ok_bind]
  rfl

theorem compile_of_not_admissible
    (config : Config) (isSpec : SpecDocument document spec)
    (excluded : ¬ spec.Admissible config.limits) :
    ∃ report, config.compile document = .error (.rejected report) := by
  cases outcome : Document.accept config.limits document with
  | error report =>
      exact ⟨report, by simp only [compile, accept, outcome, error_bind]⟩
  | ok accepted =>
      obtain ⟨isOther, admissible⟩ := specDocument_of_accept outcome
      rw [isOther.unique isSpec] at admissible
      exact absurd admissible excluded

variable {left right : Value} {leftSpec rightSpec : Spec}

theorem admissible_of_redacted_eq
    (isLeft : SpecDocument left leftSpec)
    (isRight : SpecDocument right rightSpec)
    (same : leftSpec.redacted = rightSpec.redacted) {limits : Limits}
    (admissible : leftSpec.Admissible limits) :
    rightSpec.Admissible limits := by
  rw [Spec.Admissible, ← Spec.issues_redacted isLeft.lawful, same,
    Spec.issues_redacted isRight.lawful] at admissible
  exact admissible

/-- Programs of specifications with the same redaction are written both or not
at all, and have the same lines up to the fingerprint. -/
theorem source_of_redacted_eq
    (isLeft : SpecDocument left leftSpec)
    (isRight : SpecDocument right rightSpec)
    (same : leftSpec.redacted = rightSpec.redacted) (library : Library) :
    (∃ fault, Program.source library leftSpec = .error fault ∧
        Program.source library rightSpec = .error fault) ∨
      ∃ leftText rightText, Program.source library leftSpec = .ok leftText ∧
        Program.source library rightSpec = .ok rightText ∧
        ∃ first second rest,
          Text.lines leftText.toList =
            first :: second ::
              (Program.fingerprintLine leftSpec).toList :: rest ∧
          Text.lines rightText.toList =
            first :: second ::
              (Program.fingerprintLine rightSpec).toList :: rest := by
  have tools : leftSpec.toolNames = rightSpec.toolNames := by
    rw [← Spec.toolNames_redacted, same, Spec.toolNames_redacted]
  have behind : Program.behindFingerprint library leftSpec =
      Program.behindFingerprint library rightSpec := by
    rw [← Program.behindFingerprint_redacted library isLeft.lawful, same,
      Program.behindFingerprint_redacted library isRight.lawful]
  have workflow :
      Program.workflowLine leftSpec = Program.workflowLine rightSpec := by
    rw [← Program.workflowLine_redacted, same, Program.workflowLine_redacted]
  rw [Program.source_eq library isLeft.isPrintable_workflowLine,
    Program.source_eq library isRight.isPrintable_workflowLine, behind, tools]
  cases Program.behindFingerprint library rightSpec with
  | error fault => exact .inl ⟨_, rfl, rfl⟩
  | ok codes =>
      dsimp only
      split
      · exact .inl ⟨_, rfl, rfl⟩
      · refine .inr ⟨_, _, rfl, rfl, _, _, _,
          Program.lines_code isLeft.isPrintable_workflowLine codes, ?_⟩
        rw [workflow]
        exact Program.lines_code isRight.isPrintable_workflowLine codes

/-- Both documents are rejected, or both fail to be written for the same
reason, or both come to programs with the same credentials, the same tools and
the same lines, up to the fingerprint in the third one. -/
def TreatsAlike (config : Config) (left right : Value) : Prop :=
  (∃ leftReport rightReport,
    config.compile left = .error (.rejected leftReport) ∧
      config.compile right = .error (.rejected rightReport)) ∨
    (∃ message, config.compile left = .error (.generation message) ∧
      config.compile right = .error (.generation message)) ∨
    ∃ ofLeft ofRight,
      config.compile left = .ok ofLeft ∧ config.compile right = .ok ofRight ∧
      ofLeft.secretParams = ofRight.secretParams ∧
      ofLeft.tools = ofRight.tools ∧
      ∃ first second rest,
        Text.lines ofLeft.source.toList =
          first :: second ::
            ("# spec-hash: " ++ ofLeft.fingerprint).toList :: rest ∧
        Text.lines ofRight.source.toList =
          first :: second ::
            ("# spec-hash: " ++ ofRight.fingerprint).toList :: rest

/-- Accepted documents with the same redaction are treated alike under every
configuration, whichever limits they were accepted under. -/
theorem treatsAlike_of_redact_eq
    {leftLimits rightLimits : Limits} {left right : Value}
    {leftAccepted rightAccepted : Accepted}
    (isLeft : Document.accept leftLimits left = .ok leftAccepted)
    (isRight : Document.accept rightLimits right = .ok rightAccepted)
    (alike : redact left = redact right) (config : Config) :
    config.TreatsAlike left right := by
  obtain ⟨leftIsSpec, _⟩ := specDocument_of_accept isLeft
  obtain ⟨rightIsSpec, _⟩ := specDocument_of_accept isRight
  have same := leftIsSpec.alike rightIsSpec alike
  by_cases admissible : leftAccepted.spec.Admissible config.limits
  · have alsoAdmissible :=
      admissible_of_redacted_eq leftIsSpec rightIsSpec same admissible
    rw [TreatsAlike, config.compile_of_admissible leftIsSpec admissible,
      config.compile_of_admissible rightIsSpec alsoAdmissible]
    apply Or.inr
    rcases source_of_redacted_eq leftIsSpec rightIsSpec same
      config.library with
      ⟨fault, ofLeft, ofRight⟩ | ⟨leftText, rightText, ofLeft, ofRight, lines⟩
    · rw [ofLeft, ofRight]
      exact .inl ⟨_, rfl, rfl⟩
    · rw [ofLeft, ofRight]
      refine .inr ⟨_, _, rfl, rfl, ?_, ?_, lines⟩
      · rw [← Spec.secretParams_redacted, same, Spec.secretParams_redacted]
      · rw [← Spec.toolNames_redacted, same, Spec.toolNames_redacted]
  · have alsoExcluded : ¬ rightAccepted.spec.Admissible config.limits :=
      mt (admissible_of_redacted_eq rightIsSpec leftIsSpec same.symm)
        admissible
    obtain ⟨leftReport, leftRejected⟩ :=
      config.compile_of_not_admissible leftIsSpec admissible
    obtain ⟨rightReport, rightRejected⟩ :=
      config.compile_of_not_admissible rightIsSpec alsoExcluded
    exact .inl ⟨leftReport, rightReport, leftRejected, rightRejected⟩

/-- A call with a token, which is given literally, and with a secret input,
about which there may be remarks. -/
def postingMembers (token : String) (remarks : Members) : Members :=
  [("name", .string "posting"), ("version", .string "1.0.0"),
    ("inputs", .array [.object
      (("name", .string "api_key") :: ("type", .string "string") :: remarks)]),
    ("metadata", .object remarks),
    ("workflow",
      .object [("type", .string "tool_call"), ("tool", .string "post"),
        ("params",
          .object [("token", .string token),
            ("key", .string "\x7b\x7bapi_key\x7d\x7d")])])]

def postingSpec
    (token : String) (remarks : Members) (description : Option String)
    (sample : Option Value) : Spec where
  name := "posting"
  description := ""
  version := "1.0.0"
  inputs := [⟨"api_key", .string, description, sample⟩]
  outputs := []
  workflow := .call ⟨"post",
    [("token", .string token), ("key", .string "\x7b\x7bapi_key\x7d\x7d")],
    none⟩
  metadata := Sorted.ofList remarks

theorem specMembers_postingMembers
    {token : String} {remarks : Members} {description : Option String}
    {sample : Option Value}
    (isTemplate : (Value.string token).references = .ok [])
    (described : OptionalText
      (("name", .string "api_key") :: ("type", .string "string") :: remarks)
      "description" description)
    (sampled : sample =
      sample? (("name", .string "api_key") :: ("type", .string "string") ::
          remarks)) :
    SpecMembers (postingMembers token remarks)
      (postingSpec token remarks description sample) where
  nameAt := rfl
  name := (by decide +kernel : isIdentifier "posting" = true)
  descriptionAt := ⟨none, .inl rfl, rfl⟩
  versionAt := rfl
  version := (by decide +kernel : isVersion "1.0.0" = true)
  inputsAt := ⟨_, rfl, .cons ⟨_, rfl, rfl, rfl, described, sampled⟩ .nil⟩
  inputs :=
    (⟨by decide +kernel, by decide +kernel, by simp⟩ :
      LawfulNames [] ["api_key"])
  outputsAt := .inr ⟨rfl, .inl rfl⟩
  outputs := lawfulNames_nil
  metadataAt := .inl ⟨_, rfl, rfl⟩
  workflowAt := by
    have tool : isIdentifier "post" = true := by decide +kernel
    refine ⟨_, rfl, .call rfl rfl (.inl rfl) (.inl rfl) ⟨tool, ?_, by simp⟩⟩
    simp only [List.forall_mem_cons]
    exact ⟨⟨by decide +kernel, [], isTemplate⟩,
      ⟨by decide +kernel, [⟨"api_key", []⟩], by decide +kernel⟩, by simp⟩

theorem treatsAlike_of_redact_eq_posting :
    ∃ leftAccepted rightAccepted,
      Document.accept Limits.testing (.object (postingMembers "1234" [])) =
        .ok leftAccepted ∧
      Document.accept Limits.testing (.object (postingMembers "abcd"
        [("description", .string "old"), ("example", .string "xyz")])) =
          .ok rightAccepted ∧
      redact (.object (postingMembers "1234" [])) =
        redact (.object (postingMembers "abcd"
        [("description", .string "old"), ("example", .string "xyz")])) ∧
      Config.TreatsAlike {} (.object (postingMembers "1234" []))
        (.object (postingMembers "abcd"
        [("description", .string "old"), ("example", .string "xyz")])) := by
  have leftSpec :
      SpecMembers (postingMembers "1234" [])
        (postingSpec "1234" [] none none) :=
    specMembers_postingMembers (by decide +kernel) (.inl rfl) rfl
  have rightSpec : SpecMembers
      (postingMembers "abcd"
        [("description", .string "old"), ("example", .string "xyz")])
      (postingSpec "abcd"
        [("description", .string "old"), ("example", .string "xyz")]
        (some "old") (some (.string "xyz"))) :=
    specMembers_postingMembers (by decide +kernel) rfl rfl
  have leftAdmissible :
      (postingSpec "1234" [] none none).Admissible Limits.testing := by
    unfold Spec.Admissible
    decide +kernel
  have rightAdmissible : (postingSpec "abcd"
      [("description", .string "old"), ("example", .string "xyz")]
      (some "old") (some (.string "xyz"))).Admissible Limits.testing := by
    unfold Spec.Admissible
    decide +kernel
  obtain ⟨leftAccepted, isLeft, _⟩ :=
    exists_accept_iff.mpr ⟨⟨_, rfl, leftSpec⟩, leftAdmissible⟩
  obtain ⟨rightAccepted, isRight, _⟩ :=
    exists_accept_iff.mpr ⟨⟨_, rfl, rightSpec⟩, rightAdmissible⟩
  have alike : redact (.object (postingMembers "1234" [])) =
      redact (.object (postingMembers "abcd"
        [("description", .string "old"), ("example", .string "xyz")])) := rfl
  exact ⟨leftAccepted, rightAccepted, isLeft, isRight, alike,
    treatsAlike_of_redact_eq isLeft isRight alike {}⟩

end Config

end Workflow
