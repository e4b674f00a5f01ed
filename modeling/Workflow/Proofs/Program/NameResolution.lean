import Workflow.Proofs.Program.Naming

/-!
# Names in programs resolve

The text of the program of an accepted document defines each function of the
tree once, and a line that uses one finds its definition in force.  The tools
that are called are those that have a function at the left margin, and each has
one.  Calls stand in the text in the order in which the tree is walked.
-/

namespace Workflow.Program

open SelfCheck Code

/-- The text of a fragment that is a call. -/
def Fragment.callText? : Fragment → Option String
  | .call text => some text
  | .condition _ => none

/-- The calls in code, in the order of its lines, are those given. -/
def Makes (codes : List Code) (calls : List ToolCall) : Prop :=
  ((fragmentsAll codes).filterMap Fragment.callText?).map Except.ok =
    calls.map callExpression

namespace Makes

variable {codes more : List Code} {calls others : List ToolCall}

theorem append (first : Makes codes calls) (second : Makes more others) :
    Makes (codes ++ more) (calls ++ others) := by
  rw [Makes, fragmentsAll_append, List.filterMap_append, List.map_append,
    first, second, List.map_append]

theorem block {header : String}
    (noCall : (Fragment.ofLine? header.toList).bind Fragment.callText? = none)
    (first : Makes codes calls) (second : Makes more others) :
    Makes (.block header codes :: more) (calls ++ others) := by
  have nothing :
      (Fragment.ofLine? header.toList).toList.filterMap Fragment.callText? =
        [] := by
    cases found : Fragment.ofLine? header.toList with
    | none => rfl
    | some fragment =>
        rw [found, Option.bind_some] at noCall
        simp [noCall]
  rw [Makes, fragmentsAll, fragments, List.filterMap_append,
    List.filterMap_append, nothing, List.nil_append, List.map_append, first,
    second, List.map_append]

/-- Conditions add no calls. -/
theorem before (first : Makes codes calls)
    (noCalls : (fragmentsAll more).filterMap Fragment.callText? = []) :
    Makes (codes ++ more) calls := by
  rw [Makes, fragmentsAll_append, List.filterMap_append, noCalls,
    List.append_nil, first]

end Makes

theorem makes_callLine
    {call : ToolCall} {code : Code} (written : callLine call = .ok code) :
    Makes [code] [call] := by
  have same := fragments_callLine written .document []
  rw [Makes, fragmentsAll, fragmentsAll, same, List.append_nil]
  unfold callLine at written
  split at written
  · cases written
  · rename_i text isText
    simp [Site.fragments, isText, Fragment.callText?]

theorem noCall_function (name : String) :
    (Fragment.ofLine? ("def " ++ name ++ "(ctx):").toList).bind
      Fragment.callText? = none := by
  rw [Fragment.ofLine?_eq_none (c := 'd') (by simp) (by simp)]
  rfl

theorem noCall_if (condition : String) :
    (Fragment.ofLine? ("if " ++ condition ++ ":").toList).bind
      Fragment.callText? = none := by
  rw [Fragment.ofLine?_if]
  rfl

theorem noCall_else :
    (Fragment.ofLine? "else:".toList).bind Fragment.callText? = none := by
  rw [Fragment.ofLine?_else]
  rfl

mutual

/-- The code of a tree makes the calls of the tree, in order. -/
theorem makes_treeCode
    {last : Nat} {node : Node} {result : Numbered}
    (written : treeCode last node = .ok result) :
    Makes result.code node.calls := by
  match node with
  | .call invocation =>
      obtain ⟨line, isLine, returned⟩ := bind_eq_ok_iff.mp written
      obtain rfl := Except.ok.inj returned
      exact makes_callLine isLine
  | .sequence steps => exact makes_stepCode written
  | .branch condition whenTrue none =>
      obtain ⟨first, isFirst, returned⟩ := bind_eq_ok_iff.mp written
      obtain rfl := Except.ok.inj returned
      have nothing : Makes [] [] := rfl
      have whole := Makes.block (noCall_if (conditionExpression condition))
        (makes_treeCode isFirst) nothing
      rwa [List.append_nil] at whole
  | .branch condition whenTrue (some otherwise) =>
      obtain ⟨first, isFirst, returned⟩ := bind_eq_ok_iff.mp written
      obtain ⟨second, isSecond, returned⟩ := bind_eq_ok_iff.mp returned
      obtain rfl := Except.ok.inj returned
      have nothing : Makes [] [] := rfl
      have other := Makes.block noCall_else (makes_treeCode isSecond) nothing
      rw [List.append_nil] at other
      exact .block (noCall_if (conditionExpression condition))
        (makes_treeCode isFirst) other
  | .fanout branches join =>
      obtain ⟨units, isUnits, returned⟩ := bind_eq_ok_iff.mp written
      obtain rfl := Except.ok.inj returned
      apply (makes_unitCode isUnits).before
      rw [fragmentsAll, fragments_joinLine]
      rfl
  | .dispatch routes rules fallback =>
      obtain ⟨functions, isFunctions, returned⟩ := bind_eq_ok_iff.mp written
      obtain ⟨choice, isChoice, returned⟩ := bind_eq_ok_iff.mp returned
      obtain rfl := Except.ok.inj returned
      apply (makes_routeCode isFunctions).before
      rw [fragmentsAll_routeChoice isChoice, List.filterMap_eq_nil_iff,
        List.forall_mem_map]
      intro rule _
      rfl
termination_by structural node

theorem makes_stepCode
    {last : Nat} {steps : List Node} {result : Numbered}
    (written : stepCode last steps = .ok result) :
    Makes result.code (Node.callsList steps) := by
  match steps with
  | [] =>
      obtain rfl := Except.ok.inj written
      rfl
  | node :: rest =>
      obtain ⟨first, isFirst, returned⟩ := bind_eq_ok_iff.mp written
      obtain ⟨later, isLater, returned⟩ := bind_eq_ok_iff.mp returned
      obtain rfl := Except.ok.inj returned
      exact (makes_treeCode isFirst).append (makes_stepCode isLater)
termination_by structural steps

theorem makes_unitCode
    {number last position : Nat} {branches : List Node} {result : Numbered}
    (written : unitCode number last position branches = .ok result) :
    Makes result.code (Node.callsList branches) := by
  match branches with
  | [] =>
      obtain rfl := Except.ok.inj written
      rfl
  | node :: rest =>
      obtain ⟨first, isFirst, returned⟩ := bind_eq_ok_iff.mp written
      obtain ⟨later, isLater, returned⟩ := bind_eq_ok_iff.mp returned
      obtain rfl := Except.ok.inj returned
      exact .block (noCall_function _) (makes_treeCode isFirst)
        (makes_unitCode isLater)
termination_by structural branches

theorem makes_routeCode
    {number last : Nat} {routes : List (String × Node)} {result : Numbered}
    (written : routeCode number last routes = .ok result) :
    Makes result.code (Node.callsRoutes routes) := by
  match routes with
  | [] =>
      obtain rfl := Except.ok.inj written
      rfl
  | (name, node) :: rest =>
      obtain ⟨first, isFirst, returned⟩ := bind_eq_ok_iff.mp written
      obtain ⟨later, isLater, returned⟩ := bind_eq_ok_iff.mp returned
      obtain rfl := Except.ok.inj returned
      exact .block (noCall_function _) (makes_treeCode isFirst)
        (makes_routeCode isLater)
termination_by structural routes

end

/-- The tool that a call names. -/
def toolOfCall? (call : String) : Option String :=
  (behind? "tool_" call.toList).map fun rest =>
    String.ofList (rest.takeWhile (· != '('))

theorem toolOfCall?_callExpression
    {call : ToolCall} (identifier : isIdentifier call.tool = true)
    {text : String} (isText : callExpression call = .ok text) :
    toolOfCall? text = some call.tool := by
  obtain ⟨expressions, _, shape⟩ := bind_eq_ok_iff.mp isText
  obtain rfl := Except.ok.inj shape
  have isName : IsName call.tool :=
    fun c member => isFieldChar_of_isIdentifier identifier member
  have chars :
      ("tool_" ++ call.tool ++ "(" ++
        Text.commaSeparated (arguments expressions) ++ ")").toList =
        "tool_".toList ++
          (call.tool.toList ++ '(' ::
            ((Text.commaSeparated (arguments expressions)).toList ++
              [')'])) := by
    simp
  rw [toolOfCall?, chars, behind?_append, Option.map_some,
    isName.takeWhile rfl, String.ofList_toList]

/-- Calls are read back as calls of their tools. -/
theorem filterMap_toolOfCall? {texts : List String} {calls : List ToolCall}
    (written : texts.map Except.ok = calls.map callExpression)
    (identifiers : ∀ call ∈ calls, isIdentifier call.tool = true) :
    texts.filterMap toolOfCall? = calls.map ToolCall.tool := by
  induction calls generalizing texts with
  | nil =>
      obtain rfl : texts = [] := by simpa using written
      rfl
  | cons call calls induction =>
      obtain ⟨text, rest, rfl, isText, later⟩ :=
        List.map_eq_cons_iff.mp written
      obtain ⟨identifier, others⟩ := List.forall_mem_cons.mp identifiers
      rw [List.filterMap_cons_some
          (toolOfCall?_callExpression identifier isText.symm),
        induction later others, List.map_cons]

/-- The tools that the first lines of pieces of code define. -/
def toolsAt (codes : List Code) : List String :=
  (codes.map opener).filterMap toolOf?

theorem toolsAt_append (codes more : List Code) :
    toolsAt (codes ++ more) = toolsAt codes ++ toolsAt more := by
  rw [toolsAt, List.map_append, List.filterMap_append]
  rfl

/-- At the left margin only the first line of a piece of code can define a
tool. -/
theorem filterMap_toolOf?_linesAll (codes : List Code) :
    (linesAll 0 codes).filterMap toolOf? = toolsAt codes := by
  induction codes with
  | nil => rfl
  | cons code rest induction =>
      have first : (lines 0 code).filterMap toolOf? =
          [opener code].filterMap toolOf? := by
        cases code with
        | line text =>
            rw [lines, indentation_toList]
            rfl
        | blank => rfl
        | block header body =>
            have inBody : (linesAll 1 body).filterMap toolOf? = [] := by
              rw [List.filterMap_eq_nil_iff]
              intro line member
              apply (defines_nothing _).1
              rcases head_of_mem_linesAll body 0 line member with
                rfl | indented
              · simp
              · simp [indented]
            rw [lines, indentation_toList, List.filterMap_cons, inBody, opener]
            rfl
      rw [linesAll, List.filterMap_append, first, induction, toolsAt,
        ← List.filterMap_append]
      rfl

theorem toolsAt_eq_nil
    {codes : List Code}
    (none : ∀ code ∈ codes, (opener code).head? ≠ some 'd') :
    toolsAt codes = [] := by
  rw [toolsAt, List.filterMap_eq_nil_iff, List.forall_mem_map]
  intro code member
  exact (defines_nothing (none code member)).1

theorem toolsAt_fixed
    {texts : List String} (fixed : areFixed (texts.map String.toList) = true) :
    toolsAt (texts.map ofLine) = [] := by
  simp only [areFixed, Bool.and_eq_true, List.all_eq_true,
    Option.isNone_iff_eq_none] at fixed
  rw [← filterMap_toolOf?_linesAll, linesAll_ofLine, List.filterMap_eq_nil_iff]
  intro text member
  exact (fixed.1.1 text member).1.2

theorem toolsAt_gap : toolsAt gap = [] :=
  rfl

theorem toolsAt_header (spec : Spec) : toolsAt (header spec) = [] := by
  apply toolsAt_eq_nil
  simp only [header, List.forall_mem_append, List.forall_mem_cons]
  refine ⟨⟨by simp [opener], ?_⟩, by simp [opener]⟩
  split
  · exact List.forall_mem_nil _
  · exact List.forall_mem_singleton.mpr (by simp [opener])

theorem toolsAt_constants (spec : Spec) : toolsAt (constants spec) = [] := by
  apply toolsAt_eq_nil
  simp [constants, opener]

/-- Every tool has its function, and blank lines between functions define
nothing. -/
theorem toolsAt_toolFunctions
    (library : Library) (credentials : String → NameSet) {tools : NameSet}
    (identifiers : ∀ tool ∈ tools.names, isIdentifier tool = true) :
    toolsAt (toolFunctions library credentials tools) = tools.names := by
  have spread (codes : List Code) :
      toolsAt (separated codes) = toolsAt codes := by
    fun_induction separated codes with
    | case1 => rfl
    | case2 only => rfl
    | case3 first rest notEmpty induction =>
        have divided : toolsAt ([first] ++ gap ++ separated rest) =
            toolsAt ([first] ++ rest) := by
          rw [toolsAt_append, toolsAt_append, toolsAt_append, toolsAt_gap,
            List.append_nil, induction]
        exact divided
  rw [toolFunctions, spread]
  generalize tools.names = names at identifiers
  induction names with
  | nil => rfl
  | cons tool names induction =>
      obtain ⟨identifier, others⟩ := List.forall_mem_cons.mp identifiers
      have first : toolOf? (opener (toolFunction library credentials tool)) =
          some tool :=
        toolOf?_header identifier
      rw [toolsAt, List.map_cons, List.map_cons,
        List.filterMap_cons_some first]
      exact congrArg (tool :: ·) (induction others)

theorem toolsAt_beforeTree
    (library : Library) {spec : Spec} (lawful : spec.workflow.Lawful) :
    toolsAt (beforeTree library spec) = spec.toolNames.names := by
  have ofImports : toolsAt (imports.map ofLine) = [] :=
    toolsAt_fixed areFixed_imports
  have ofSupport : toolsAt (support.map ofLine) = [] :=
    toolsAt_fixed areFixed_support
  have ofTools : toolsAt (if spec.toolNames.isEmpty then []
      else toolFunctions library spec.workflow.credentials spec.toolNames ++
        gap) =
      spec.toolNames.names := by
    split
    · rename_i empty
      have none : spec.toolNames.names = [] := by
        simpa [NameSet.isEmpty] using empty
      rw [none]
      rfl
    · rw [toolsAt_append, toolsAt_gap, List.append_nil]
      exact toolsAt_toolFunctions library _ fun _ member =>
        isIdentifier_of_mem_toolNames lawful member
  have blank : toolsAt [.blank] = [] := rfl
  simp only [beforeTree, toolsAt_append, toolsAt_header, ofImports, blank,
    toolsAt_constants, toolsAt_gap, ofSupport, ofTools, List.nil_append]

/-- The functions that the function of the tree defines, itself included. -/
def treeDefinitions (program : String) : List String :=
  (treeLines program).filterMap definedName?

/-- The calls in the function of the tree, in the order of its lines. -/
def treeCalls (program : String) : List String :=
  ((treeLines program).filterMap Fragment.ofLine?).filterMap Fragment.callText?

/-- The tools that have a function at the left margin. -/
def definedTools (program : String) : List String :=
  (Text.lines program.toList).filterMap toolOf?

/-- Every function of a program that is used or called is defined, and no more
than once. -/
structure NamesResolve (program : String) : Prop where
  definedOnce : (treeDefinitions program).Nodup
  usesDefined : UsesDefined [] (treeLines program)
  toolsOnce : (definedTools program).Nodup
  toolsCalled : ∀ tool, tool ∈ definedTools program ↔
    tool ∈ (treeCalls program).filterMap toolOfCall?

theorem lines_treeBlock (spec : Spec) :
    lines 0 (treeBlock spec) =
      ("def " ++ "_workflow" ++ "(ctx):").toList ::
        linesAll 1 (Step.emitAll 0 (outline spec.workflow)).code := by
  rw [treeBlock, lines, indentation_toList]
  rfl

theorem toolsAt_wholeCode
    (library : Library) {spec : Spec} (lawful : spec.workflow.Lawful) :
    toolsAt (wholeCode library spec) = spec.toolNames.names := by
  have shape : wholeCode library spec =
      beforeTree library spec ++
        ([treeBlock spec] ++
          (gap ++ [entryPoint spec] ++ gap ++ [usage spec])) := rfl
  have ofTree : toolsAt [treeBlock spec] = [] := by
    rw [toolsAt, List.map_singleton, treeBlock, opener]
    decide +kernel
  have ofEntry : toolsAt [entryPoint spec] = [] := by
    rw [toolsAt, List.map_singleton, entryPoint, opener]
    decide +kernel
  have ofUsage : toolsAt [usage spec] = [] := by
    apply toolsAt_eq_nil
    simp [usage, opener]
  rw [shape]
  simp only [toolsAt_append, toolsAt_beforeTree library lawful, ofTree,
    toolsAt_gap, ofEntry, ofUsage, List.append_nil]

/-- The tools that the lines of a program define are those that its tree
calls. -/
theorem definedTools_renderAll
    (library : Library) {members : Members} {spec : Spec}
    (document : Document.SpecMembers members spec) :
    definedTools (renderAll 0 (wholeCode library spec)) =
      spec.toolNames.names := by
  obtain ⟨_, _, tree⟩ := document.workflowAt
  rw [definedTools, lines_wholeCode library document,
    filterMap_toolOf?_linesAll, toolsAt_wholeCode library tree.lawful]

theorem isName_workflow : IsName "_workflow" := by
  simp [IsName, Reference.isFieldChar]

theorem name_ne_workflow (function : LocalFunction) :
    function.name ≠ "_workflow" := by
  rw [Ne, ← String.toList_inj]
  cases function with
  | unit number position => simp [LocalFunction.name, unitName]
  | route number name => simp [LocalFunction.name, routeName]

/-- The function of a lawful tree defines the functions of the tree, and each
is in force where it is used. -/
theorem definitions_treeBlock {spec : Spec} (lawful : spec.workflow.Lawful) :
    (lines 0 (treeBlock spec)).filterMap definedName? =
      "_workflow" :: (spec.workflow.functions 0).map LocalFunction.name ∧
    UsesDefined [] (lines 0 (treeBlock spec)) := by
  obtain ⟨_, named⟩ := named_treeCode lawful (treeCode_eq_emitAll 0 lawful)
  obtain ⟨_, _, neat⟩ := neat_treeBlock lawful
  rw [lines_treeBlock]
  constructor
  · rw [List.filterMap_cons_some (definedName?_function isName_workflow),
      ← named.defined 1]
    rfl
  · have usesNone :
        usedNames ("def " ++ "_workflow" ++ "(ctx):").toList = [] :=
      usedNames_eq_nil (by simp) (by simp)
    apply usesDefined_cons
    · rw [usesNone]
      exact List.forall_mem_nil _
    · exact usesDefined_linesAll neat named.resolved 1 (List.forall_mem_nil _)

theorem nodup_treeFunctions {node : Node} (lawful : node.Lawful) :
    ("_workflow" :: (node.functions 0).map LocalFunction.name).Nodup := by
  rw [List.nodup_cons]
  refine ⟨?_,
    (Node.distinct_functions lawful 0).nodup.map LocalFunction.name_injective⟩
  intro member
  obtain ⟨function, _, same⟩ := List.mem_map.mp member
  exact name_ne_workflow function same

theorem makes_treeBlock {spec : Spec} (lawful : spec.workflow.Lawful) :
    (((lines 0 (treeBlock spec)).filterMap Fragment.ofLine?).filterMap
      Fragment.callText?).map
      Except.ok = spec.workflow.calls.map callExpression := by
  have header : Fragment.ofLine? "def _workflow(ctx):".toList = none := by
    decide
  rw [filterMap_lines, treeBlock, fragments, header]
  exact makes_treeCode (treeCode_eq_emitAll 0 lawful)

/-- The program of an accepted document is written.  It defines the functions
of the tree, its names resolve, and its calls stand in the order in which the
tree is walked. -/
theorem namesResolve_of_accept
    {limits : Limits} {document : Value} {accepted : Accepted}
    (isAccepted : Document.accept limits document = .ok accepted)
    (library : Library) :
    ∃ codes, code library accepted.spec = .ok codes ∧
      treeDefinitions (renderAll 0 codes) =
        "_workflow" ::
          (accepted.spec.workflow.functions 0).map LocalFunction.name ∧
      NamesResolve (renderAll 0 codes) ∧
      (treeCalls (renderAll 0 codes)).map Except.ok =
        accepted.spec.workflow.calls.map callExpression := by
  obtain ⟨⟨members, _, isDocument⟩, _⟩ :=
    Document.specDocument_of_accept isAccepted
  obtain ⟨_, _, tree⟩ := isDocument.workflowAt
  have lawful := tree.lawful
  have treeText := treeLines_wholeCode library isDocument
  have tools := definedTools_renderAll library isDocument
  have calls := makes_treeBlock lawful
  have called :=
    filterMap_toolOfCall? calls fun call member =>
      (lawful.calls call member).tool
  obtain ⟨defined, usesDefined⟩ := definitions_treeBlock lawful
  rw [← treeText] at defined
  refine ⟨_, code_eq_wholeCode library isDocument, defined, ⟨?_, ?_, ?_, ?_⟩,
    ?_⟩
  · rw [treeDefinitions, defined]
    exact nodup_treeFunctions lawful
  · rw [treeText]
    exact usesDefined
  · rw [tools]
    exact accepted.spec.toolNames.increasing.imp String.ne_of_lt
  · intro tool
    rw [tools, treeCalls, treeText, called]
    exact NameSet.mem_ofList
  · rw [treeCalls, treeText]
    exact calls

/-- Branches beside each other and behind a route, with a rule and a
default. -/
def tourSteps : Value :=
  visitSteps [
    .object [("type", .string "parallel"), ("join", .string "wait-for-all"),
      ("branches", .array [visitCall "enter", visitCall "wait"])],
    .object [("type", .string "orchestrator"), ("default", .string "west"),
      ("rules",
        .array [.object
          [("condition", .string "1 < 2"), ("target", .string "east")]]),
      ("sub_workflows", .object [
        ("west",
          .object [("type", .string "parallel"),
            ("join", .string "first-to-finish"),
            ("branches", .array [visitCall "enter", visitCall "stay"])]),
        ("east", visitCall "leave")])]]

def tourTree : Node :=
  .sequence [
    .fanout [.call ⟨"enter", [], none⟩, .call ⟨"wait", [], none⟩] .waitForAll,
    .dispatch
      (Sorted.ofList [
        ("west",
          .fanout [.call ⟨"enter", [], none⟩, .call ⟨"stay", [], none⟩]
            .firstToFinish),
        ("east", .call ⟨"leave", [], none⟩)])
      [⟨"1 < 2", "east"⟩] (some "west")]

theorem nodeDocument_tourSteps : Document.NodeDocument tourSteps tourTree := by
  have enter :=
    nodeDocument_visitCall (by decide +kernel : isIdentifier "enter" = true)
  have wait :=
    nodeDocument_visitCall (by decide +kernel : isIdentifier "wait" = true)
  have stay :=
    nodeDocument_visitCall (by decide +kernel : isIdentifier "stay" = true)
  have leave :=
    nodeDocument_visitCall (by decide +kernel : isIdentifier "leave" = true)
  have routing :
      LawfulRouting ["west", "east"] [⟨"1 < 2", "east"⟩] (some "west") := by
    refine ⟨?_, by simp, .inl (by simp)⟩
    rw [List.forall_mem_singleton]
    exact ⟨by decide +kernel, by simp⟩
  refine nodeDocument_visitSteps (.cons ?_ (.cons ?_ .nil)) (by simp)
  · exact .fanout rfl rfl (.cons enter (.cons wait .nil)) (by simp) rfl
  · have west : Document.NodeDocument (.object [("type", .string "parallel"),
        ("join", .string "first-to-finish"),
        ("branches", .array [visitCall "enter", visitCall "stay"])])
        (.fanout [.call ⟨"enter", [], none⟩, .call ⟨"stay", [], none⟩]
          .firstToFinish) :=
      .fanout rfl rfl (.cons enter (.cons stay .nil)) (by simp) rfl
    exact .dispatch rfl rfl
      (.cons (by decide +kernel) west (.cons (by decide +kernel) leave .nil))
      (by simp)
      (.inl ⟨_, rfl, .cons ⟨_, rfl, rfl, rfl⟩ .nil⟩) rfl routing

theorem namesResolve_of_accept_tourSteps :
    ∃ accepted,
      Document.accept Limits.testing (.object (visitMembers tourSteps)) =
        .ok accepted ∧
      ∃ codes,
        code [] accepted.spec = .ok codes ∧ NamesResolve (renderAll 0 codes) ∧
        treeDefinitions (renderAll 0 codes) =
          ["_workflow", "_fanout1_unit0", "_fanout1_unit1", "_route2_east",
            "_route2_west",
            "_fanout3_unit0", "_fanout3_unit1"] ∧
        (treeLines (renderAll 0 codes)).flatMap usedNames =
          ["_fanout1_unit0", "_fanout1_unit1", "_fanout3_unit0",
            "_fanout3_unit1", "_route2_east",
            "_route2_west"] ∧
        treeCalls (renderAll 0 codes) =
          ["tool_enter()", "tool_wait()", "tool_leave()", "tool_enter()",
            "tool_stay()"] := by
  have admissible : (visitSpec tourTree).Admissible Limits.testing := by
    unfold Spec.Admissible
    decide +kernel
  have isDocument := specMembers_visitMembers nodeDocument_tourSteps
  obtain ⟨accepted, isAccepted, isSpec⟩ :=
    Document.exists_accept_iff.mpr ⟨⟨_, rfl, isDocument⟩, admissible⟩
  obtain ⟨codes, isCode, defined, resolve, _⟩ :=
    namesResolve_of_accept isAccepted []
  obtain ⟨others, isOther, treeText⟩ := exists_treeLines_eq [] isDocument
  obtain rfl : codes = others := by
    rw [isSpec, isOther] at isCode
    exact (Except.ok.inj isCode).symm
  refine ⟨accepted, isAccepted, codes, isCode, resolve, ?_, ?_, ?_⟩
  · rw [defined, isSpec]
    decide +kernel
  · rw [treeText]
    decide +kernel
  · rw [treeCalls, treeText]
    decide +kernel

end Workflow.Program
