import Workflow.Proofs.Program.EnvironmentCalls
import Workflow.Proofs.Program.FunctionBlocks

/-!
# What a program reads from the environment

The reads in each part of a program, found in its lines: the function of a tool
without an implementation asks for the credentials that the tool is called
with, the tree reads those that the document gives a value for, and the entry
point and the example of use read the secret inputs.  No other line reads
anything.
-/

namespace Workflow.Program.Environment

open Code SelfCheck

theorem gather_credentialGuard (tool param : String) :
    gather reads (credentialGuard tool param) = readsOf [param] := by
  have asks : Closes "if not ".toList [] := closes_front (by decide)
  have colon : Closes [':'] [] := closes_sign (by decide)
  have header :
      Closes ("if not " ++ environmentRead param ++ ":").toList
        (readsOf [param]) := by
    rw [String.toList_append, String.toList_append, List.append_assoc]
    exact asks.before
      ((closes_environmentRead param).shows.behind colon (by decide))
  have raised : ∀ reason : String,
      reads ("raise ConfigurationError(" ++ Text.quoted reason ++ ")").toList =
        [] := by
    intro reason
    exact (closes_application "raise ConfigurationError"
        (shows_quiet (by decide)) (closes_quoted reason).shows (by simp)).reads
  simp only [credentialGuard, gather, gatherAll, header.reads, raised,
    List.append_nil]

theorem gatherAll_map
    {α : Type} {function : α → Code} {name : α → String}
    (each : ∀ item, gather reads (function item) = readsOf [name item])
    (items : List α) :
    gatherAll reads (items.map function) = readsOf (items.map name) := by
  induction items with
  | nil => rfl
  | cons item rest induction =>
      rw [List.map_cons, gatherAll, each, induction]
      rfl

/-- A placeholder asks for each of its credentials. -/
theorem gatherAll_placeholderBody (tool : String) (credentials : NameSet) :
    gatherAll reads (placeholderBody tool credentials) =
      readsOf credentials.names := by
  have guards :
      gatherAll reads (credentials.names.map (credentialGuard tool)) =
        readsOf (credentials.names.map id) :=
    gatherAll_map (gather_credentialGuard tool) credentials.names
  rw [List.map_id] at guards
  have sorted : Shows "sorted(kwargs)".toList [] :=
    (closes_front (by decide)).shows
  have entries : ∀ item ∈ [entry "tool" (Text.quoted tool),
      entry "status" (Text.quoted "placeholder"),
      entry "params" "sorted(kwargs)"],
      Shows item.toList [] := by
    simp only [List.forall_mem_cons]
    exact ⟨shows_entry (closes_quoted _).shows,
      shows_entry (closes_quoted _).shows, shows_entry sorted,
      List.forall_mem_nil _⟩
  have returns : Closes "return ".toList [] := closes_front (by decide)
  have answer := (returns.before (closes_dictionaryExpression entries)).reads
  rw [← String.toList_append] at answer
  rw [placeholderBody, gatherAll_append, gatherAll, gather,
    (closes_quoted _).reads, guards, gatherAll, gather, answer, gatherAll,
    List.append_nil, List.append_nil, List.nil_append]

theorem gatherAll_delegationBody (implementation : LibraryEntry) :
    gatherAll reads (delegationBody implementation) = [] := by
  have arguments : ∀ item ∈ [Text.quoted implementation.modulePath,
      Text.quoted implementation.function, "kwargs"],
      Shows item.toList [] := by
    simp only [List.forall_mem_cons]
    exact ⟨(closes_quoted _).shows, (closes_quoted _).shows,
      shows_quiet (by decide), List.forall_mem_nil _⟩
  have line : Closes ("return _delegate(" ++ Text.commaSeparated
      [Text.quoted implementation.modulePath,
        Text.quoted implementation.function, "kwargs"] ++
      ")").toList [] :=
    closes_application "return _delegate" (shows_quiet (by decide))
      (shows_items arguments) (by simp)
  rw [delegationBody, gatherAll, gather, gatherAll, line.reads,
    List.append_nil]

/-- The credentials that the function of a tool asks for: none when the tool
has an implementation. -/
def guarded
    (library : Library) (credentials : String → NameSet) (tool : String) :
    List String :=
  match library.get? tool with
  | some _ => []
  | none => (credentials tool).names

theorem gather_toolFunction
    (library : Library) (credentials : String → NameSet) {tool : String}
    (identifier : isIdentifier tool = true) :
    gather reads (toolFunction library credentials tool) =
      readsOf (guarded library credentials tool) := by
  have front : Closes "def ".toList [] := closes_front (by decide)
  have start : IsName "tool_" := by simp [IsName, Reference.isFieldChar]
  have name : IsName ("tool_" ++ tool) :=
    start.append fun c member => isFieldChar_of_isIdentifier identifier member
  have arguments : Closes "(**kwargs):".toList [] := closes_front (by decide)
  have header : reads ("def tool_" ++ tool ++ "(**kwargs):").toList = [] := by
    have shape : ("def tool_" ++ tool ++ "(**kwargs):").toList =
        "def ".toList ++
          (("tool_" ++ tool).toList ++ "(**kwargs):".toList) := by simp
    rw [shape]
    exact (front.before ((shows_name name).before arguments (by decide))).reads
  rw [toolFunction, gather, header, List.nil_append, guarded]
  cases library.get? tool with
  | some implementation => exact gatherAll_delegationBody implementation
  | none => exact gatherAll_placeholderBody tool (credentials tool)

theorem gather_secretFallback (input : Input) :
    gather reads (secretFallback input) = readsOf [input.name] := by
  have asks : Closes "if inputs.get(".toList [] := closes_front (by decide)
  have missing : Closes ") is None:".toList [] := closes_front (by decide)
  have index : Closes "inputs[".toList [] := closes_front (by decide)
  have assigns : Closes "] = ".toList [] := closes_front (by decide)
  have header :
      Closes
        ("if inputs.get(" ++ Text.quoted input.name ++ ") is None:").toList
        [] := by
    rw [String.toList_append, String.toList_append]
    exact (asks.before (closes_quoted input.name)).before missing
  have line : Closes ("inputs[" ++ Text.quoted input.name ++ "] = " ++
      environmentRead input.name).toList (readsOf [input.name]) := by
    rw [String.toList_append, String.toList_append, String.toList_append]
    exact ((index.before (closes_quoted input.name)).before assigns).before
      (closes_environmentRead input.name)
  rw [secretFallback, gather, header.reads, gatherAll, gather, line.reads,
    gatherAll, List.append_nil, List.nil_append]

/-- The names of the inputs that are credentials, in declared order. -/
def secretNames (inputs : List Input) : List String :=
  (inputs.filter Input.isSecret).map Input.name

theorem gather_entryPoint (spec : Spec) :
    gather reads (entryPoint spec) = readsOf (secretNames spec.inputs) := by
  have fallbacks :
      gatherAll reads
        ((spec.inputs.filter Input.isSecret).map secretFallback) =
        readsOf (secretNames spec.inputs) :=
    gatherAll_map gather_secretFallback _
  have fixed : ∀ line ∈ ["def run_workflow(**inputs):",
      "original = dict(inputs)", "inputs = dict(inputs)",
      "for name in INPUTS:", "if inputs.get(name) is None:",
      "raise MissingInputError(name)", "ctx = _Context(inputs)", "try:",
      "_workflow(ctx)", "except Exception as exc:",
      "raise WorkflowError(exc, ctx.snapshot(), original) from exc",
      "return ctx.snapshot()"], reads line.toList = [] := by
    intro line member
    apply reads_eq_nil
    revert line
    decide +kernel
  simp only [List.forall_mem_cons] at fixed
  simp only [entryPoint, gather, gatherAll, gatherAll_append, fallbacks,
    (closes_quoted _).reads, fixed, List.append_nil, List.nil_append]

theorem shows_exampleExpression (input : Input) :
    Shows (exampleExpression input).toList
      (if input.isSecret then readsOf [input.name] else []) := by
  unfold exampleExpression
  split
  · exact (closes_environmentRead input.name).shows
  · split
    · exact shows_literal _
    · cases input.type with
      | string => exact (closes_quoted "").shows
      | integer => exact shows_quiet (by decide)
      | number => exact shows_quiet (by decide)
      | boolean => exact shows_quiet (by decide)
      | array => exact (closes_listExpression (List.forall_mem_nil _)).shows
      | object =>
          exact (closes_dictionaryExpression (List.forall_mem_nil _)).shows

theorem reads_exampleLine (input : Input) :
    reads (exampleLine input).toList =
      if input.isSecret then readsOf [input.name] else [] := by
  have blanks : Closes "    ".toList [] := closes_front (by decide)
  have comma : Closes [','] [] := closes_sign (by decide)
  rw [exampleLine, String.toList_append, String.toList_append,
    List.append_assoc]
  exact (blanks.before
    ((shows_entry (shows_exampleExpression input)).behind comma
      (by decide))).reads

theorem gatherAll_exampleInputs (inputs : List Input) :
    gatherAll reads (exampleInputs inputs) = readsOf (secretNames inputs) := by
  have lines :
      gatherAll reads (inputs.map fun input => .line (exampleLine input)) =
        readsOf (secretNames inputs) := by
    rw [secretNames]
    induction inputs with
    | nil => rfl
    | cons input rest induction =>
        rw [List.map_cons, gatherAll, gather, reads_exampleLine, induction,
          List.filter_cons]
        cases input.isSecret <;> rfl
  unfold exampleInputs
  split
  · rename_i empty
    have nothing :
        reads ("example_inputs = " ++ dictionaryExpression []).toList = [] :=
      reads_eq_nil (by decide +kernel)
    rw [List.isEmpty_iff.mp empty, gatherAll, gather, nothing]
    rfl
  · have opened : reads "example_inputs = \x7b".toList = [] :=
      reads_eq_nil (by decide +kernel)
    have closed : reads "\x7d".toList = [] := reads_eq_nil (by decide +kernel)
    simp only [List.cons_append, gatherAll, gather, opened, gatherAll_append,
      closed, List.append_nil, List.nil_append]
    exact lines

theorem gather_usage (spec : Spec) :
    gather reads (usage spec) = readsOf (secretNames spec.inputs) := by
  have fixed :
      ∀ line ∈ ["if __name__ == \"__main__\":", "import json", exampleRun],
        reads line.toList = [] := by
    intro line member
    apply reads_eq_nil
    revert line
    decide +kernel
  simp only [List.forall_mem_cons] at fixed
  simp only [usage, gather, gatherAll, gatherAll_append, fixed,
    gatherAll_exampleInputs, List.append_nil, List.nil_append]

/-- The variable that two lines of a function guard: the first asks whether it
is missing, and the second, below it, refuses to go on. -/
def guardOf? (question refusal : List Char) : Option String :=
  match behind? "        raise ConfigurationError(" refusal,
      (behind? "    if not os.environ.get" question).bind argument? with
  | some _, some (asked, [':']) => some asked
  | _, _ => none

/-- The variables that the lines of a function guard. -/
def guards : List (List Char) → List String
  | question :: refusal :: rest =>
      (guardOf? question refusal).toList ++ guards (refusal :: rest)
  | _ => []

theorem guards_cons {line : List Char} (rest : List (List Char))
    (other : behind? "    if not os.environ.get" line = none) :
    guards (line :: rest) = guards rest := by
  cases rest with
  | nil => rfl
  | cons next rest =>
      have nothing : guardOf? line next = none := by
        rw [guardOf?, other]
        split
        · rename_i found
          cases found
        · rfl
      rw [guards, nothing]
      rfl

theorem guards_credentialGuard
    (tool param : String) (rest : List (List Char)) :
    guards (lines 1 (credentialGuard tool param) ++ rest) =
      environmentVariable param :: guards rest := by
  have question :
      (margin 1 ++ ("if not " ++ environmentRead param ++ ":").toList) =
        "    if not os.environ.get".toList ++ '(' ::
          ((Text.quoted (environmentVariable param)).toList ++
            [')', ':']) := by
    rw [String.toList_append, String.toList_append, environmentRead_toList]
    simp [margin, List.replicate]
  have refusal : ∀ reason : String,
      margin 2 ++
        ("raise ConfigurationError(" ++ Text.quoted reason ++ ")").toList =
        "        raise ConfigurationError(".toList ++
          (Text.quoted reason ++ ")").toList := by
    intro reason
    simp [margin, List.replicate]
  have other : ∀ behind : List Char, behind? "    if not os.environ.get"
      ("        raise ConfigurationError(".toList ++ behind) = none := by
    intro behind
    simp [behind?, List.isPrefixOf]
  simp only [credentialGuard, lines, linesAll, indentation_toList, question,
    refusal, List.cons_append, List.nil_append]
  rw [guards, guards_cons rest (other _), guardOf?, behind?_append,
    behind?_append, Option.bind_some, argument?_quoted]
  rfl

/-- A line at the margin of a body that asks nothing guards nothing. -/
theorem guards_line {text : String} (rest : List (List Char))
    (other : text.toList.head? ≠ some 'i') :
    guards (lines 1 (.line text) ++ rest) = guards rest := by
  have noQuestion :
      behind? "    if not os.environ.get" (margin 1 ++ text.toList) =
        none := by
    cases shape : text.toList with
    | nil => simp [behind?, margin, List.replicate, List.isPrefixOf]
    | cons c chars =>
        have notStart : c ≠ 'i' := by simpa [shape] using other
        simp [behind?, margin, List.replicate, List.isPrefixOf, notStart.symm]
  rw [lines, indentation_toList, List.singleton_append,
    guards_cons rest noQuestion]

theorem guards_placeholderBody (tool : String) (credentials : NameSet) :
    guards (linesAll 1 (placeholderBody tool credentials)) =
      credentials.names.map environmentVariable := by
  have quotedHead :
      ∀ text : String, (Text.quoted text).toList.head? ≠ some 'i' := by
    intro text
    simp [Text.quoted, Text.quotedChars]
  have asked : ∀ (names : List String) (rest : List (List Char)),
      guards (linesAll 1 (names.map (credentialGuard tool)) ++ rest) =
        names.map environmentVariable ++ guards rest := by
    intro names rest
    induction names with
    | nil => rfl
    | cons name names induction =>
        rw [List.map_cons, linesAll, List.append_assoc, guards_credentialGuard,
          induction]
        rfl
  have answer : ∀ expression : String,
      guards (linesAll 1 [.line ("return " ++ expression)]) = [] := by
    intro expression
    rw [linesAll, guards_line _ (by simp)]
    rfl
  rw [placeholderBody, List.cons_append, linesAll,
    guards_line _ (quotedHead _), linesAll_append, asked, answer,
    List.append_nil]

/-- The function of a tool guards what it asks for. -/
theorem guards_toolFunction
    (library : Library) (credentials : String → NameSet) (tool : String) :
    guards (lines 0 (toolFunction library credentials tool)) =
      (guarded library credentials tool).map environmentVariable := by
  have header : behind? "    if not os.environ.get"
      (margin 0 ++ ("def tool_" ++ tool ++ "(**kwargs):").toList) = none := by
    simp [behind?, margin, List.isPrefixOf]
  rw [toolFunction, lines, indentation_toList, guards_cons _ header, guarded]
  cases library.get? tool with
  | some implementation => rfl
  | none => exact guards_placeholderBody tool (credentials tool)

theorem reads_margin (level : Nat) (line : List Char) :
    reads (margin level ++ line) = reads line := by
  rw [margin]
  induction 4 * level with
  | zero => rfl
  | succ width induction =>
      have blank : Closes [' '] [] := closes_sign (by decide)
      rw [List.replicate_succ, List.cons_append, ← induction]
      exact blank _

theorem reads_comment {text : String} (starts : text.toList.head? = some '#') :
    reads text.toList = [] := by
  have silent : ∀ rest, readsFrom .comment rest = [] := by
    intro rest
    induction rest with
    | nil => rfl
    | cons c rest induction =>
        rw [readsFrom, Place.behind, induction]
        rfl
  obtain ⟨rest, shape⟩ := List.head?_eq_some_iff.mp starts
  have sign : readAt (.code false) ('#' :: rest) = [] :=
    readAt_eq_nil (by simp)
  rw [shape, reads, readsFrom, sign]
  exact silent rest

theorem gatherAll_header (spec : Spec) :
    gatherAll reads (header spec) = [] := by
  have generated :
      reads ("# Generated by " ++ generator ++ ". Do not edit.").toList = [] :=
    reads_comment (by simp)
  have named :
      reads ("# workflow: " ++ spec.name ++ " " ++ spec.version).toList = [] :=
    reads_comment (by simp)
  have hashed : reads ("# spec-hash: " ++ spec.fingerprint).toList = [] :=
    reads_comment (by simp)
  have secrets : ∀ listed : String,
      reads ("# secrets are read from the environment: " ++ listed).toList =
        [] := by
    intro listed
    exact reads_comment (by simp)
  simp only [header, gatherAll_append, gatherAll, gather, generated, named,
    hashed]
  split
  · rfl
  · rw [gatherAll, gather, secrets]
    rfl

theorem gatherAll_fixed
    {texts : List String}
    (absent : ((texts.map String.toList).all fun text =>
        !namesModule false text) = true) :
    gatherAll reads (texts.map ofLine) = [] := by
  rw [← flatMap_linesAll reads rfl reads_margin 0, linesAll_ofLine,
    List.flatMap_eq_nil_iff]
  intro text member
  apply reads_eq_nil
  simpa using List.all_eq_true.mp absent text member

theorem gatherAll_imports : gatherAll reads (imports.map ofLine) = [] :=
  gatherAll_fixed (by decide +kernel)

theorem gatherAll_support : gatherAll reads (support.map ofLine) = [] := by
  apply gatherAll_fixed
  simp only [support, List.map_cons, List.map_nil]
  repeat rw [String.toList_ofList]
  decide +kernel

theorem closes_tupleExpression
    {items : List String} (each : ∀ item ∈ items, Shows item.toList []) :
    Closes (tupleExpression items).toList [] := by
  match items with
  | [] => exact closes_front (by decide)
  | [item] =>
      have opened : Closes ['('] [] := closes_sign (by decide)
      have closed : Closes [',', ')'] [] := closes_front (by decide)
      have shape : (tupleExpression [item]).toList =
          ['('] ++ (item.toList ++ [',', ')']) := by
        simp [tupleExpression]
      rw [shape]
      exact opened.before
        ((each item List.mem_cons_self).before closed (by decide))
  | first :: second :: rest =>
      have shape : (tupleExpression (first :: second :: rest)).toList =
          ['('] ++
            ((Text.commaSeparated (first :: second :: rest)).toList ++
              [')']) := by
        simp [tupleExpression]
      have opened : Closes ['('] [] := closes_sign (by decide)
      rw [shape]
      exact opened.before
        ((shows_items each).before (closes_sign (by decide)) (by decide))

theorem gatherAll_constants (spec : Spec) :
    gatherAll reads (constants spec) = [] := by
  have entries : ∀ item ∈ [entry "name" (Text.quoted spec.name),
      entry "version" (Text.quoted spec.version),
      entry "description" (Text.quoted spec.description)],
      Shows item.toList [] := by
    simp only [List.forall_mem_cons]
    exact ⟨shows_entry (closes_quoted _).shows,
      shows_entry (closes_quoted _).shows, shows_entry (closes_quoted _).shows,
      List.forall_mem_nil _⟩
  have names : ∀ (α : Type) (items : List α) (name : α → String), Closes
      (tupleExpression (items.map fun item => Text.quoted (name item))).toList
        [] := by
    intro α items name
    apply closes_tupleExpression
    intro text member
    obtain ⟨item, _, rfl⟩ := List.mem_map.mp member
    exact (closes_quoted _).shows
  have assigned : ∀ front expression : String, isFront front.toList = true →
      Closes expression.toList [] →
      reads (front ++ expression).toList = [] := by
    intro front expression isFront closes
    rw [String.toList_append]
    exact ((closes_front isFront).before closes).reads
  simp only [constants, gatherAll, gather]
  rw [assigned "WORKFLOW = " _ (by decide)
      (closes_dictionaryExpression entries),
    assigned "INPUTS = " _ (by decide) (names _ spec.inputs Input.name),
    assigned "OUTPUTS = " _ (by decide) (names _ spec.outputs Output.name)]
  rfl

theorem gatherAll_tools
    (library : Library) {spec : Spec} (lawful : spec.workflow.Lawful) :
    gatherAll reads (spec.toolNames.names.flatMap fun tool =>
        toolFunction library spec.workflow.credentials tool :: gap) =
      spec.toolNames.names.flatMap fun tool =>
        readsOf (guarded library spec.workflow.credentials tool) := by
  have identifiers :
      ∀ tool ∈ spec.toolNames.names, isIdentifier tool = true := by
    intro tool member
    exact isIdentifier_of_mem_toolNames lawful member
  generalize spec.toolNames.names = names at identifiers
  induction names with
  | nil => rfl
  | cons tool rest induction =>
      obtain ⟨identifier, others⟩ := List.forall_mem_cons.mp identifiers
      rw [List.flatMap_cons, List.flatMap_cons, gatherAll_append,
        induction others, gatherAll, gather_toolFunction library _ identifier]
      simp [gap, gatherAll, gather]

/-- The reads in the lines of a program. -/
def readsIn (program : String) : List (Option String) :=
  (Text.lines program.toList).flatMap reads

/-- What a program reads: the credentials of tools without an implementation,
then those whose values stand in the document, and the secret inputs twice. -/
def programReads (library : Library) (spec : Spec) : List String :=
  spec.toolNames.names.flatMap (guarded library spec.workflow.credentials) ++
    spec.workflow.calls.flatMap ToolCall.literalSecrets ++
    secretNames spec.inputs ++ secretNames spec.inputs

theorem readsOf_append (names more : List String) :
    readsOf (names ++ more) = readsOf names ++ readsOf more :=
  List.map_append

theorem gatherAll_beforeTree
    (library : Library) {spec : Spec} (lawful : spec.workflow.Lawful) :
    gatherAll reads (beforeTree library spec) =
      readsOf (spec.toolNames.names.flatMap
          (guarded library spec.workflow.credentials)) := by
  have ofGap : gatherAll reads gap = [] := rfl
  have ofBlank : gatherAll reads [.blank] = [] := rfl
  rw [beforeTree, tools_eq_flatMap]
  simp only [gatherAll_append, gatherAll_header, gatherAll_imports,
    gatherAll_constants, gatherAll_support, gatherAll_tools library lawful,
    ofGap, ofBlank, List.nil_append]
  rw [readsOf, List.map_flatMap]
  rfl

theorem gatherAll_wholeCode
    (library : Library) {spec : Spec} (lawful : spec.workflow.Lawful) :
    gatherAll reads (wholeCode library spec) =
      readsOf (programReads library spec) := by
  have ofTree : gather reads (treeBlock spec) =
      readsOf (spec.workflow.calls.flatMap ToolCall.literalSecrets) := by
    rw [gather_treeBlock lawful, readsOf, List.map_flatMap]
    rfl
  simp only [programReads, readsOf_append]
  rw [wholeCode, gatherAll_append, gatherAll_beforeTree library lawful]
  simp only [behindTree, gap, gatherAll_append, gatherAll, gather, ofTree,
    gather_entryPoint, gather_usage, List.append_nil, List.nil_append,
    List.append_assoc]

theorem readsIn_wholeCode (library : Library) {members : Members} {spec : Spec}
    (document : Document.SpecMembers members spec) :
    readsIn (renderAll 0 (wholeCode library spec)) =
      readsOf (programReads library spec) := by
  obtain ⟨_, _, tree⟩ := document.workflowAt
  rw [readsIn, lines_wholeCode library document,
    flatMap_linesAll reads rfl reads_margin]
  exact gatherAll_wholeCode library tree.lawful

end Workflow.Program.Environment
