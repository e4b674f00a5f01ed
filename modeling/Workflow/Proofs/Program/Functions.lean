import Workflow.Proofs.Program.Parts

/-!
# Functions of a program

The tool functions, the entry point and the example of use pass the self-check.
Each tool function defines its tool, and only the entry point defines an entry
point.
-/

namespace Workflow.Program

open SelfCheck Code

theorem regular_credentialGuard (tool param : String) :
    (credentialGuard tool param).Regular := by
  have header :
      StandsAlone ("if not " ++ environmentRead param ++ ":").toList :=
    standsAlone_header "if not " (by decide)
      (sealed_environmentRead param).expression (by simp)
  have raised (reason : String) :
      Regular
        (.line ("raise ConfigurationError(" ++ Text.quoted reason ++ ")")) :=
    regular_application "raise ConfigurationError" (by decide)
      (expression_quoted reason) (by simp)
  exact ⟨header, rfl, raised _, trivial⟩

theorem regularAll_placeholderBody (tool : String) (credentials : NameSet) :
    RegularAll (placeholderBody tool credentials) := by
  have entries : ∀ item ∈ [entry "tool" (Text.quoted tool),
      entry "status" (Text.quoted "placeholder"),
      entry "params" "sorted(kwargs)"],
      Expression item.toList := by
    have argument : Expression "kwargs".toList :=
      (sealed_of_isPlain (by decide)).expression
    have sorted : Sealed "sorted(kwargs)".toList :=
      sealed_application "sorted" (by decide) argument (by simp)
    simp only [List.forall_mem_cons]
    exact ⟨expression_entry (expression_quoted _),
      expression_entry (expression_quoted _),
      expression_entry sorted.expression, List.forall_mem_nil _⟩
  have answer := regular_dictionary "return " (by decide) entries
  apply regularAll_iff.mpr
  intro code member
  simp only [placeholderBody, List.cons_append, List.mem_cons, List.mem_append,
    List.mem_map, List.not_mem_nil, or_false] at member
  rcases member with rfl | ⟨param, _, rfl⟩ | rfl
  · exact regular_quoted _
  · exact regular_credentialGuard tool param
  · exact answer

theorem regularAll_delegationBody (implementation : LibraryEntry) :
    RegularAll (delegationBody implementation) := by
  have arguments : ∀ item ∈ [Text.quoted implementation.modulePath,
      Text.quoted implementation.function, "kwargs"],
      Expression item.toList := by
    simp only [List.forall_mem_cons]
    exact ⟨expression_quoted _, expression_quoted _,
      (sealed_of_isPlain (by decide)).expression, List.forall_mem_nil _⟩
  refine ⟨?_, trivial⟩
  exact regular_application "return _delegate" (by decide)
    (expression_joined_comma arguments) (by simp)

theorem regular_toolFunction
    (library : Library) (credentials : String → NameSet) {tool : String}
    (identifier : isIdentifier tool = true) :
    (toolFunction library credentials tool).Regular := by
  have arguments : Expression "**kwargs".toList :=
    (sealed_of_isPlain (by decide)).expression
  have applied : Sealed ("tool_" ++ tool ++ "(**kwargs)").toList :=
    sealed_application ("tool_" ++ tool)
      (IsPlain.append (by decide) (isPlain_of_isIdentifier identifier))
        arguments (by simp)
  have header : StandsAlone ("def tool_" ++ tool ++ "(**kwargs):").toList :=
    standsAlone_header "def " (by decide) applied.expression (by simp)
  refine ⟨header, ?_⟩
  cases library.get? tool with
  | none => exact ⟨rfl, regularAll_placeholderBody tool (credentials tool)⟩
  | some implementation =>
      exact ⟨rfl, regularAll_delegationBody implementation⟩

theorem behind?_append (start : String) (rest : List Char) :
    behind? start (start.toList ++ rest) = some rest := by
  have isPrefix : start.toList.isPrefixOf (start.toList ++ rest) = true :=
    List.isPrefixOf_iff_prefix.mpr (List.prefix_append _ _)
  rw [behind?, if_pos isPrefix, ← String.length_toList, List.drop_left]

/-- The header of a tool function defines the tool. -/
theorem toolOf?_header
    {tool : String} (identifier : isIdentifier tool = true) :
    toolOf? ("def tool_" ++ tool ++ "(**kwargs):").toList = some tool := by
  have shape : ("def tool_" ++ tool ++ "(**kwargs):").toList =
      "def tool_".toList ++ (tool.toList ++ "(**kwargs):".toList) := by simp
  have noBracket : ∀ c ∈ tool.toList, (c != '(') = true := by
    intro c member
    rw [bne_iff_ne]
    rintro rfl
    exact absurd (isFieldChar_of_isIdentifier identifier member) (by decide)
  have name : (tool.toList ++ "(**kwargs):".toList).takeWhile (· != '(') =
      tool.toList := by
    rw [List.takeWhile_append_of_pos noBracket]
    simp
  rw [toolOf?, shape, behind?_append, Option.map_some, name,
    String.ofList_toList]

theorem isEntry_header (tool : String) :
    isEntry ("def tool_" ++ tool ++ "(**kwargs):").toList = false := by
  have noPrefix : "def run_workflow(".toList.isPrefixOf
      ("def tool_" ++ tool ++ "(**kwargs):").toList = false := by
    simp [List.isPrefixOf]
  rw [isEntry, behind?, if_neg (by rw [noPrefix]; exact Bool.false_ne_true),
    Option.isSome_none]

theorem part_toolFunction
    (library : Library) (credentials : String → NameSet) {tool : String}
    (identifier : isIdentifier tool = true) :
    Part [toolFunction library credentials tool] [tool] 0 := by
  have part :=
    part_of_regular (regular_toolFunction library credentials identifier)
  have tools :
      [opener (toolFunction library credentials tool)].filterMap toolOf? =
        [tool] := by
    rw [toolFunction, opener, List.filterMap_cons, toolOf?_header identifier,
      List.filterMap_nil]
  have entries :
      [opener (toolFunction library credentials tool)].countP isEntry = 0 := by
    rw [toolFunction, opener, List.countP_cons, isEntry_header]
    rfl
  rwa [tools, entries] at part

theorem part_separated {function : String → Code} {names : List String}
    (each : ∀ name ∈ names, Part [function name] [name] 0) :
    Part (separated (names.map function)) names 0 := by
  induction names with
  | nil => exact ⟨[], flow_nil 0, rfl, rfl⟩
  | cons name rest induction =>
      obtain ⟨first, later⟩ := List.forall_mem_cons.mp each
      match rest with
      | [] => exact first
      | second :: others =>
          exact (first.behind part_gap).append (induction later)

theorem part_toolFunctions
    (library : Library) (credentials : String → NameSet) {tools : NameSet}
    (identifiers : ∀ tool ∈ tools.names, isIdentifier tool = true) :
    Part (toolFunctions library credentials tools) tools.names 0 :=
  part_separated fun tool member =>
    part_toolFunction library credentials (identifiers tool member)

theorem getLast?_environmentRead (name : String) :
    (environmentRead name).toList.getLast? = some ')' := by
  rw [environmentRead_toList, ← List.cons_append, ← List.append_assoc]
  exact List.getLast?_concat

theorem regular_secretFallback (input : Input) :
    (secretFallback input).Regular := by
  have name := expression_quoted input.name
  have asked :
      Sealed (("inputs.get(" ++ Text.quoted input.name ++ ")").toList ++
          " is None".toList) :=
    (sealed_application "inputs.get" (by decide) name (by simp)).append
      (sealed_of_isPlain (by decide))
  have header :
      StandsAlone
        ("if inputs.get(" ++ Text.quoted input.name ++ ") is None:").toList :=
    standsAlone_header "if " (by decide) asked.expression (by simp)
  have index : Sealed ('[' :: ((Text.quoted input.name).toList ++ [']'])) :=
    sealed_brackets (by simp [Pair]) name
  have equals : Sealed " = ".toList := sealed_of_isPlain (by decide)
  have assigned :=
    (index.append
      (equals.append (sealed_environmentRead input.name))).expression
  have last : (('[' :: ((Text.quoted input.name).toList ++ [']'])) ++
      (" = ".toList ++ (environmentRead input.name).toList)).getLast? =
        some ')' := by
    rw [List.getLast?_append, List.getLast?_append, getLast?_environmentRead]
    rfl
  refine ⟨header, rfl, ?_, trivial⟩
  exact regular_behind "inputs" (by decide) assigned (by simp) last (by decide)
    (by decide)

theorem regular_entryPoint (spec : Spec) : (entryPoint spec).Regular := by
  have missing : Regular (.block "for name in INPUTS:"
      [.block "if inputs.get(name) is None:"
        [.line "raise MissingInputError(name)"]]) :=
    ⟨standsAlone_of_isAlone rfl (by decide +kernel), rfl,
      ⟨standsAlone_of_isAlone rfl (by decide +kernel), rfl,
        regular_of_isAlone rfl (by decide +kernel), trivial⟩, trivial⟩
  have run : Regular (.block "try:" [.line "_workflow(ctx)"]) :=
    ⟨standsAlone_of_isAlone rfl (by decide +kernel), rfl,
      regular_of_isAlone rfl (by decide +kernel), trivial⟩
  have failed : Regular (.block "except Exception as exc:"
      [.line "raise WorkflowError(exc, ctx.snapshot(), original) from exc"]) :=
    ⟨standsAlone_of_isAlone rfl (by decide +kernel), rfl,
      regular_of_isAlone rfl (by decide +kernel), trivial⟩
  refine ⟨standsAlone_of_isAlone rfl (by decide +kernel), rfl, ?_⟩
  apply regularAll_iff.mpr
  intro code member
  simp only [List.cons_append, List.nil_append, List.mem_cons, List.mem_append,
    List.mem_map, List.not_mem_nil, or_false] at member
  rcases member with
    rfl | rfl | rfl | ⟨input, _, rfl⟩ | rfl | rfl | rfl | rfl | rfl
  · exact regular_quoted _
  · exact regular_of_isAlone rfl (by decide +kernel)
  · exact regular_of_isAlone rfl (by decide +kernel)
  · exact regular_secretFallback input
  · exact missing
  · exact regular_of_isAlone rfl (by decide +kernel)
  · exact run
  · exact failed
  · exact regular_of_isAlone rfl (by decide +kernel)

theorem part_entryPoint (spec : Spec) : Part [entryPoint spec] [] 1 := by
  have part := part_of_regular (regular_entryPoint spec)
  have defines :
      ["def run_workflow(**inputs):".toList].filterMap toolOf? = [] ∧
      ["def run_workflow(**inputs):".toList].countP isEntry = 1 := by
    decide +kernel
  rw [entryPoint, opener, defines.1, defines.2] at part
  exact part

theorem expression_exampleExpression (input : Input) :
    Expression (exampleExpression input).toList := by
  unfold exampleExpression
  split
  · exact (sealed_environmentRead input.name).expression
  · split
    · exact expression_literal _
    · cases input.type with
      | string => exact expression_quoted ""
      | integer => exact (sealed_of_isPlain (by decide)).expression
      | number => exact (sealed_of_isPlain (by decide)).expression
      | boolean => exact (sealed_of_isPlain (by decide)).expression
      | array => exact (sealed_listExpression (by simp)).expression
      | object => exact (sealed_dictionaryExpression (by simp)).expression

theorem readLine_sealed {text : List Char} (whole : Sealed text) (number : Nat)
    (brackets : List (Char × Nat)) :
    readLine number ⟨.code, brackets⟩ text = .ok ⟨.code, brackets⟩ := by
  have read := whole.reads number brackets []
  rw [List.append_nil] at read
  rw [readLine_eq_readRest fun member => (whole.inline _ member).2 rfl, read]
  rfl

/-- Lines inside of a bracket start no statement. -/
theorem readLines_inside
    {lexer : Lexer} (inside : lexer.brackets.isEmpty = false)
    {texts : List (List Char)}
    (each : ∀ text ∈ texts, ∀ number, readLine number lexer text = .ok lexer)
    (number : Nat) :
    ∃ read, readLines number lexer texts = .ok (read, lexer) ∧
      read.filter Line.startsStatement = [] := by
  induction texts generalizing number with
  | nil => exact ⟨[], rfl, rfl⟩
  | cons text rest induction =>
      obtain ⟨here, later⟩ := List.forall_mem_cons.mp each
      obtain ⟨read, reached, noStatement⟩ := induction later (number + 1)
      refine ⟨⟨number, text, false⟩ :: read, ?_, ?_⟩
      · simp only [readLines, here number, reached, ok_bind, inside,
          Bool.false_and]
        rfl
      · rw [List.filter_cons_of_neg (by simp), noStatement]

/-- Lines between one that opens a bracket and one that closes it belong to its
statement. -/
theorem reads_group
    {bracket : Char} {first last : List Char} {inner : List (List Char)}
    (opens : ∀ number,
      readLine number ⟨.code, []⟩ first = .ok ⟨.code, [(bracket, number)]⟩)
    (each : ∀ text ∈ inner, ∀ line number,
      readLine number ⟨.code, [(bracket, line)]⟩ text =
        .ok ⟨.code, [(bracket, line)]⟩)
    (closes : ∀ line number,
      readLine number ⟨.code, [(bracket, line)]⟩ last = .ok ⟨.code, []⟩) :
    Reads ([first] ++ (inner ++ [last])) [first] := by
  intro number
  have opened : readLines number ⟨.code, []⟩ [first] =
      .ok ([⟨number, first, true⟩], ⟨.code, [(bracket, number)]⟩) := by
    simp only [readLines, opens number, ok_bind]
    rfl
  obtain ⟨read, reached, noStatement⟩ := readLines_inside rfl
    (fun text member => each text member number) (number + [first].length)
  have closed : readLines (number + [first].length + inner.length)
      ⟨.code, [(bracket, number)]⟩ [last] =
        .ok ([⟨number + [first].length + inner.length, last, false⟩],
          ⟨.code, []⟩) := by
    simp only [readLines, closes number, ok_bind]
    rfl
  refine ⟨_, readLines_append opened (readLines_append reached closed), ?_⟩
  simp [noStatement]

/-- The line of one input in the example of use. -/
def exampleLine (input : Input) : String :=
  "    " ++ entry input.name (exampleExpression input) ++ ","

theorem sealed_exampleLine (input : Input) :
    Sealed (exampleLine input).toList := by
  have comma : Sealed ",".toList := sealed_of_isPlain (by decide)
  have blanks : Sealed "    ".toList := sealed_of_isPlain (by decide)
  have complete :
      Expression (entry input.name (exampleExpression input)).toList :=
    expression_entry (expression_exampleExpression input)
  rw [exampleLine, String.toList_append, String.toList_append,
    List.append_assoc]
  exact blanks.append
    (complete.append_sealed comma (by simp) (by simp [Unquoted]))

theorem linesAll_line (level : Nat) (texts : List String) :
    linesAll level (texts.map .line) =
      texts.map fun text => margin level ++ text.toList := by
  induction texts with
  | nil => rfl
  | cons text texts induction => simp [linesAll, lines, induction]

/-- A dictionary with one entry a line. -/
theorem flow_exampleLines (inputs : List Input) :
    Flow 1
      (linesAll 1
        ((["example_inputs = \x7b"] ++
            (inputs.map exampleLine ++ ["\x7d"])).map .line))
      ["    example_inputs = \x7b".toList] := by
  have lines : linesAll 1
      ((["example_inputs = \x7b"] ++ (inputs.map exampleLine ++ ["\x7d"])).map
        .line) =
      ["    example_inputs = \x7b".toList] ++
        ((inputs.map exampleLine).map (fun text => margin 1 ++ text.toList) ++
          ["    \x7d".toList]) := by
    rw [linesAll_line, List.map_append, List.map_append]
    rfl
  have inner : ∀ text ∈ (inputs.map exampleLine).map
      (fun text => margin 1 ++ text.toList), Sealed text ∧ text.getLast? = some
      ',' := by
    intro text member
    obtain ⟨line, isLine, rfl⟩ := List.mem_map.mp member
    obtain ⟨input, _, rfl⟩ := List.mem_map.mp isLine
    refine ⟨(sealed_margin 1).append (sealed_exampleLine input), ?_⟩
    rw [exampleLine, String.toList_append, ← List.append_assoc]
    exact List.getLast?_concat
  have opens (number : Nat) :
      readLine number ⟨.code, []⟩ "    example_inputs = \x7b".toList =
        .ok ⟨.code, [('\x7b', number)]⟩ := by
    have front : Sealed "    example_inputs = ".toList :=
      sealed_of_isPlain (by decide)
    have shape : "    example_inputs = \x7b".toList =
        "    example_inputs = ".toList ++ ['\x7b'] := by simp
    rw [readLine_eq_readRest (by decide), shape, front.reads]
    rfl
  have closes (line number : Nat) :
      readLine number ⟨.code, [('\x7b', line)]⟩ "    \x7d".toList =
        .ok ⟨.code, []⟩ := by
    have front : Sealed "    ".toList := sealed_of_isPlain (by decide)
    have shape : "    \x7d".toList = "    ".toList ++ ['\x7d'] := by simp
    rw [readLine_eq_readRest (by decide), shape, front.reads]
    rfl
  rw [lines]
  exact {
    tidy := by
      simp only [List.forall_mem_append, List.forall_mem_singleton]
      refine ⟨⟨by decide, by decide⟩, ?_, ⟨by decide, by decide⟩⟩
      intro text member
      obtain ⟨whole, last⟩ := inner text member
      exact ⟨fun feed => (whole.inline _ feed).1 rfl, by simp [last]⟩
    reads := by
      refine reads_group opens ?_ closes
      intro text member line number
      exact readLine_sealed (inner text member).1 number _
    indented := by decide +kernel
    first := by decide +kernel
    margin := by decide +kernel }

theorem exists_flow_exampleInputs (inputs : List Input) :
    ∃ statements, Flow 1 (linesAll 1 (exampleInputs inputs)) statements := by
  unfold exampleInputs
  split
  · have regular :
        RegularAll [.line ("example_inputs = " ++ dictionaryExpression [])] :=
      ⟨regular_dictionary "example_inputs = " (by decide) (by simp),
        trivial⟩
    exact ⟨_, regular.flow 1⟩
  · have flow := flow_exampleLines inputs
    rw [List.map_append, List.map_append, List.map_map] at flow
    exact ⟨_, flow⟩

theorem part_usage (spec : Spec) : Part [usage spec] [] 0 := by
  have front : RegularAll [.line "import json", .blank] :=
    ⟨regular_of_isAlone rfl (by decide +kernel), trivial, trivial⟩
  have run : RegularAll [.line exampleRun] :=
    ⟨regular_of_isAlone rfl (by decide +kernel), trivial⟩
  obtain ⟨statements, inputs⟩ := exists_flow_exampleInputs spec.inputs
  have flow := ((front.flow 1).append inputs).append (run.flow 1)
  rw [← linesAll_append, ← linesAll_append] at flow
  have notEmpty :
      ((linesAll 1 [.line "import json", .blank] ++ statements) ++
        linesAll 1 [.line exampleRun]).filter isSolid ≠ [] := by
    rw [List.append_assoc, List.filter_append]
    apply List.append_ne_nil_of_left_ne_nil
    exact filter_isSolid_ne_nil front rfl 1
  have header : StandsAlone "if __name__ == \"__main__\":".toList :=
    standsAlone_of_isAlone rfl (by decide +kernel)
  have part := part_block header flow notEmpty
  have defines :
      ["if __name__ == \"__main__\":".toList].filterMap toolOf? = [] ∧
      ["if __name__ == \"__main__\":".toList].countP isEntry = 0 := by
    decide +kernel
  rw [defines.1, defines.2] at part
  exact part

end Workflow.Program
