import Workflow.Proofs.Program.Generation
import Workflow.Proofs.Program.ReadBack

/-!
# Programs keep the structure of trees

The function of the tree is found in the text of a program by its header and
its indentation.  Two accepted documents have the same function exactly when
their trees have the same outline.
-/

namespace Workflow.Program

open Code Step

/-- Lines from the first one that is a header to the end of the block below
it. -/
def blockLines (header : List Char) (lines : List (List Char)) :
    List (List Char) :=
  match lines.dropWhile (· != header) with
  | [] => []
  | found :: rest => found :: rest.takeWhile (·.head? == some ' ')

/-- The lines of a program from the header of the function of the tree to the
end of its body. -/
def treeLines (program : String) : List (List Char) :=
  blockLines "def _workflow(ctx):".toList (Text.lines program.toList)

theorem ne_header_of_mem_linesAll
    {header : List Char} (neat : Neat header) {codes : List Code}
    (others : ∀ code ∈ codes, opener code ≠ header) :
    ∀ line ∈ linesAll 0 codes, line ≠ header := by
  have indented : ∀ line : List Char,
      line = [] ∨ line.head? = some ' ' → line ≠ header := by
    intro line deeper same
    obtain ⟨c, first, solid⟩ := neat.starts
    subst same
    rcases deeper with empty | blank
    · simp [empty] at first
    · exact solid (Option.some.inj (first.symm.trans blank))
  induction codes with
  | nil => simp [linesAll]
  | cons code rest induction =>
      obtain ⟨ofCode, ofRest⟩ := List.forall_mem_cons.mp others
      rw [linesAll, List.forall_mem_append]
      refine ⟨?_, induction ofRest⟩
      cases code with
      | line text =>
          rw [lines, indentation_toList, List.forall_mem_singleton]
          exact ofCode
      | blank =>
          rw [lines, List.forall_mem_singleton]
          exact ofCode
      | block header body =>
          rw [lines, indentation_toList, List.forall_mem_cons]
          refine ⟨ofCode, ?_⟩
          intro line member
          exact indented line (head_of_mem_linesAll body 0 line member)

/-- A block is found when its header has no double in front of it and there is
a blank line behind it. -/
theorem blockLines_linesAll
    {header : String} {front body : List Code} (back : List Code)
    (others : ∀ code ∈ front, opener code ≠ header.toList)
    (neat : Code.Neat (.block header body)) :
    blockLines header.toList
      (linesAll 0 (front ++ .block header body :: .blank :: back)) =
      lines 0 (.block header body) := by
  have ofBlock :
      lines 0 (.block header body) = header.toList :: linesAll 1 body := by
    rw [lines, indentation_toList]
    rfl
  have found : linesAll 0 (front ++ .block header body :: .blank :: back) =
      linesAll 0 front ++ header.toList ::
        (linesAll 1 body ++ [] :: linesAll 0 back) := by
    rw [linesAll_append, linesAll, linesAll, ofBlock]
    rfl
  have before : ∀ line ∈ linesAll 0 front, (line != header.toList) = true := by
    intro line member
    exact bne_iff_ne.mpr (ne_header_of_mem_linesAll neat.1 others line member)
  have inside : ∀ line ∈ linesAll 1 body, (line.head? == some ' ') = true := by
    intro line member
    exact beq_iff_eq.mpr (NeatAll.head_of_mem neat.2.2 0 line member)
  rw [blockLines, found, List.dropWhile_append_of_pos before,
    List.dropWhile_cons_of_neg (by simp), ofBlock]
  simp only [List.takeWhile_append_of_pos inside]
  rw [List.takeWhile_cons_of_neg (by simp), List.append_nil]

theorem opener_ofLine (text : String) :
    opener (ofLine text) = text.toList := by
  unfold ofLine
  split
  · rename_i empty
    simp [empty, opener]
  · rfl

theorem mem_or_eq_blank_of_mem_separated {codes : List Code} {code : Code}
    (member : code ∈ separated codes) : code ∈ codes ∨ code = .blank := by
  fun_induction separated codes with
  | case1 => exact .inl member
  | case2 only => exact .inl member
  | case3 first rest notEmpty induction =>
      simp only [List.mem_cons] at member ⊢
      tauto

/-- The header of a function at the left margin that is neither support code
nor a tool. -/
structure OwnHeader (header : String) : Prop where
  first : header.toList.head? = some 'd'
  noImport : header ∉ imports
  noSupport : header ∉ support
  noTool : ∀ tool : String, "def tool_" ++ tool ++ "(**kwargs):" ≠ header

namespace OwnHeader

variable {header : String} (own : OwnHeader header)

include own

theorem ne_of_head {text : List Char} (other : text.head? ≠ some 'd') :
    text ≠ header.toList := by
  rintro rfl
  exact other own.first

theorem opener_blank : opener .blank ≠ header.toList :=
  own.ne_of_head (by simp [opener])

theorem opener_comments (spec : Spec) :
    ∀ code ∈ Program.header spec, opener code ≠ header.toList := by
  have comment {text : String} (starts : text.toList.head? = some '#') :
      opener (.line text) ≠ header.toList := by
    apply own.ne_of_head
    simp [opener, starts]
  simp only [Program.header]
  rw [List.forall_mem_append, List.forall_mem_append]
  refine ⟨⟨?_, ?_⟩, List.forall_mem_singleton.mpr own.opener_blank⟩
  · simp only [List.forall_mem_cons]
    exact ⟨comment (by simp), comment (by simp), comment (by simp), by simp⟩
  · split
    · simp
    · exact List.forall_mem_singleton.mpr (comment (by simp))

theorem opener_constants (spec : Spec) :
    ∀ code ∈ constants spec, opener code ≠ header.toList := by
  intro code member
  apply own.ne_of_head
  simp only [constants, List.mem_cons, List.not_mem_nil, or_false] at member
  rcases member with rfl | rfl | rfl
  all_goals simp [opener]

theorem opener_gap : ∀ code ∈ gap, opener code ≠ header.toList := by
  simp only [gap, List.forall_mem_cons]
  exact ⟨own.opener_blank, own.opener_blank, by simp⟩

omit own in
theorem opener_fixed {texts : List String} (absent : header ∉ texts) :
    ∀ code ∈ texts.map ofLine, opener code ≠ header.toList := by
  intro code member
  obtain ⟨text, isText, rfl⟩ := List.mem_map.mp member
  rw [opener_ofLine, Ne, String.toList_inj]
  rintro rfl
  exact absent isText

theorem opener_toolFunctions
    (library : Library) (credentials : String → NameSet) (tools : NameSet) :
    ∀ code ∈ toolFunctions library credentials tools,
      opener code ≠ header.toList := by
  intro code member
  rcases mem_or_eq_blank_of_mem_separated member with isFunction | rfl
  · obtain ⟨tool, _, rfl⟩ := List.mem_map.mp isFunction
    rw [toolFunction, opener, Ne, String.toList_inj]
    exact own.noTool tool
  · exact own.opener_blank

/-- Nothing before the function of the tree looks like such a header. -/
theorem opener_beforeTree (library : Library) (spec : Spec) :
    ∀ code ∈ beforeTree library spec, opener code ≠ header.toList := by
  have ofTools :=
    own.opener_toolFunctions library spec.workflow.credentials spec.toolNames
  unfold beforeTree
  simp only [List.forall_mem_append]
  refine ⟨⟨⟨⟨⟨⟨⟨own.opener_comments spec, opener_fixed own.noImport⟩,
    List.forall_mem_singleton.mpr own.opener_blank⟩,
    own.opener_constants spec⟩, own.opener_gap⟩,
    opener_fixed own.noSupport⟩, own.opener_gap⟩, ?_⟩
  split
  · simp
  · exact List.forall_mem_append.mpr ⟨ofTools, own.opener_gap⟩

end OwnHeader

theorem ownHeader_tree : OwnHeader "def _workflow(ctx):" where
  first := by simp
  noImport := by decide +kernel
  noSupport := by decide +kernel
  noTool tool := by
    rw [Ne, ← String.toList_inj]
    simp

/-- The function of the tree, written from its outline. -/
def treeBlock (spec : Spec) : Code :=
  .block "def _workflow(ctx):" (emitAll 0 (outline spec.workflow)).code

theorem neat_treeBlock {spec : Spec} (lawful : spec.workflow.Lawful) :
    (treeBlock spec).Neat := by
  obtain ⟨notEmpty, proper⟩ := proper_outline lawful
  obtain ⟨notNil, neat⟩ := neatAll_emitAll proper 0
  exact ⟨standsAlone_treeHeader.neat, notNil notEmpty, neat⟩

/-- All of a program behind the function of the tree and a blank line. -/
def behindTree (spec : Spec) : List Code :=
  [.blank] ++ [entryPoint spec] ++ gap ++ [usage spec]

/-- A whole program, with the function of the tree written from its outline. -/
def wholeCode (library : Library) (spec : Spec) : List Code :=
  beforeTree library spec ++ treeBlock spec :: .blank :: behindTree spec

section

variable (library : Library) {members : Members} {spec : Spec}
  (document : Document.SpecMembers members spec)

include document

theorem code_eq_wholeCode :
    code library spec = .ok (wholeCode library spec) := by
  obtain ⟨_, _, tree⟩ := document.workflowAt
  have written : treeFunction spec.workflow = .ok (treeBlock spec) := by
    simp only [treeFunction, treeCode_eq_emitAll 0 tree.lawful, ok_bind]
    rfl
  simp only [code, written, ok_bind, wholeCode, beforeTree, behindTree, gap,
    List.append_assoc, List.cons_append, List.nil_append]
  rfl

theorem lines_wholeCode :
    Text.lines (renderAll 0 (wholeCode library spec)).toList =
      linesAll 0 (wholeCode library spec) := by
  obtain ⟨_, _, tree⟩ := document.workflowAt
  have alone : NeatAll [treeBlock spec] :=
    ⟨neat_treeBlock tree.lawful, trivial⟩
  obtain ⟨_, before, _⟩ := part_beforeTree library document
  obtain ⟨_, behind, _⟩ :=
    (((part_gap.append (part_entryPoint spec)).append part_gap).append
      (part_usage spec))
  have shape : wholeCode library spec =
      beforeTree library spec ++
        ([treeBlock spec] ++
          (gap ++ [entryPoint spec] ++ gap ++ [usage spec])) := rfl
  have tidy : ∀ line ∈ linesAll 0 (wholeCode library spec), Tidy line := by
    rw [shape, linesAll_append, linesAll_append, List.forall_mem_append,
      List.forall_mem_append]
    exact ⟨before.tidy, alone.tidy 0, behind.tidy⟩
  simpa [Text.lines, Text.linesFrom] using lines_renderAll 0 _ tidy []

theorem treeLines_wholeCode :
    treeLines (renderAll 0 (wholeCode library spec)) =
      lines 0 (treeBlock spec) := by
  obtain ⟨_, _, tree⟩ := document.workflowAt
  rw [treeLines, lines_wholeCode library document]
  exact blockLines_linesAll (behindTree spec)
    (ownHeader_tree.opener_beforeTree library spec)
    (neat_treeBlock tree.lawful)

theorem exists_treeLines_eq :
    ∃ codes, code library spec = .ok codes ∧
      treeLines (renderAll 0 codes) = lines 0 (treeBlock spec) :=
  ⟨_, code_eq_wholeCode library document, treeLines_wholeCode library document⟩

end

/-- The programs of two accepted documents have the same lines for their trees
exactly when the trees have the same outline. -/
theorem treeLines_eq_iff_outline_eq
    {limits otherLimits : Limits} {left right : Value}
    {first second : Accepted}
    (isFirst : Document.accept limits left = .ok first)
    (isSecond : Document.accept otherLimits right = .ok second)
    (library otherLibrary : Library) :
    ∃ codes others, code library first.spec = .ok codes ∧
      code otherLibrary second.spec = .ok others ∧
      (treeLines (renderAll 0 codes) = treeLines (renderAll 0 others) ↔
        outline first.spec.workflow = outline second.spec.workflow) := by
  obtain ⟨⟨members, _, ofFirst⟩, _⟩ := Document.specDocument_of_accept isFirst
  obtain ⟨⟨otherMembers, _, ofSecond⟩, _⟩ :=
    Document.specDocument_of_accept isSecond
  obtain ⟨codes, isCode, firstLines⟩ := exists_treeLines_eq library ofFirst
  obtain ⟨others, isOther, secondLines⟩ :=
    exists_treeLines_eq otherLibrary ofSecond
  obtain ⟨_, _, firstTree⟩ := ofFirst.workflowAt
  obtain ⟨_, _, secondTree⟩ := ofSecond.workflowAt
  refine ⟨codes, others, isCode, isOther, ?_⟩
  rw [firstLines, secondLines]
  constructor
  · intro sameLines
    have sameBlocks := lines_injective (neat_treeBlock firstTree.lawful)
      (neat_treeBlock secondTree.lawful) sameLines
    exact emitAll_injective (proper_outline firstTree.lawful).2
      (proper_outline secondTree.lawful).2 (Code.block.inj sameBlocks).2
  · intro sameOutline
    rw [treeBlock, treeBlock, sameOutline]

/-- A document around a tree. -/
def visitMembers (workflow : Value) : Members :=
  [("name", .string "visit"), ("version", .string "1.0.0"),
    ("inputs", .array []), ("workflow", workflow)]

def visitSpec (workflow : Node) : Spec where
  name := "visit"
  description := ""
  version := "1.0.0"
  inputs := []
  outputs := []
  workflow := workflow
  metadata := []

def visitCall (tool : String) : Value :=
  .object [("type", .string "tool_call"), ("tool", .string tool)]

def visitSteps (steps : List Value) : Value :=
  .object [("type", .string "sequential"), ("steps", .array steps)]

theorem nodeDocument_visitCall
    {tool : String} (identifier : isIdentifier tool = true) :
    Document.NodeDocument (visitCall tool) (.call ⟨tool, [], none⟩) :=
  .call rfl rfl (.inr ⟨rfl, .inl rfl⟩) (.inl rfl)
    ⟨identifier, by simp, by simp⟩

theorem nodeDocument_visitSteps {values : List Value} {nodes : List Node}
    (documents : Document.NodeDocuments values nodes) (notEmpty : nodes ≠ []) :
    Document.NodeDocument (visitSteps values) (.sequence nodes) :=
  .sequence rfl rfl documents notEmpty

theorem specMembers_visitMembers {workflow : Value} {node : Node}
    (document : Document.NodeDocument workflow node) :
    Document.SpecMembers (visitMembers workflow) (visitSpec node) where
  nameAt := rfl
  name := (by decide +kernel : isIdentifier "visit" = true)
  descriptionAt := ⟨none, .inl rfl, rfl⟩
  versionAt := rfl
  version := (by decide +kernel : Document.isVersion "1.0.0" = true)
  inputsAt := ⟨_, rfl, .nil⟩
  inputs := Document.lawfulNames_nil
  outputsAt := .inr ⟨rfl, .inl rfl⟩
  outputs := Document.lawfulNames_nil
  metadataAt := .inr ⟨rfl, .inl rfl⟩
  workflowAt := ⟨_, rfl, document⟩

theorem treeLines_eq_iff_outline_eq_visit :
    ∃ first second,
      Document.accept Limits.testing (.object (visitMembers
        (visitSteps
          [visitCall "enter", visitSteps [visitSteps [visitCall "leave"]]]))) =
        .ok first ∧
      Document.accept Limits.testing (.object (visitMembers
        (visitSteps [visitCall "enter", visitCall "leave"]))) = .ok second ∧
      ∃ codes others,
        code [] first.spec = .ok codes ∧ code [] second.spec = .ok others ∧
        treeLines (renderAll 0 codes) = treeLines (renderAll 0 others) := by
  have enter :=
    nodeDocument_visitCall (by decide +kernel : isIdentifier "enter" = true)
  have leave :=
    nodeDocument_visitCall (by decide +kernel : isIdentifier "leave" = true)
  have inner := nodeDocument_visitSteps
    (.cons (nodeDocument_visitSteps (.cons leave .nil) (by simp)) .nil)
    (by simp)
  have nested :=
    nodeDocument_visitSteps (.cons enter (.cons inner .nil)) (by simp)
  have flat :=
    nodeDocument_visitSteps (.cons enter (.cons leave .nil)) (by simp)
  have nestedAdmissible : (visitSpec (.sequence [.call ⟨"enter", [], none⟩,
      .sequence [.sequence [.call ⟨"leave", [], none⟩]]])).Admissible
        Limits.testing := by
    unfold Spec.Admissible
    decide +kernel
  have flatAdmissible : (visitSpec (.sequence [.call ⟨"enter", [], none⟩,
      .call ⟨"leave", [], none⟩])).Admissible Limits.testing := by
    unfold Spec.Admissible
    decide +kernel
  obtain ⟨first, isFirst, firstSpec⟩ := Document.exists_accept_iff.mpr
    ⟨⟨_, rfl, specMembers_visitMembers nested⟩, nestedAdmissible⟩
  obtain ⟨second, isSecond, secondSpec⟩ := Document.exists_accept_iff.mpr
    ⟨⟨_, rfl, specMembers_visitMembers flat⟩, flatAdmissible⟩
  obtain ⟨codes, others, isCode, isOther, same⟩ :=
    treeLines_eq_iff_outline_eq isFirst isSecond [] []
  refine ⟨first, second, isFirst, isSecond, codes, others, isCode, isOther,
    same.mpr ?_⟩
  rw [firstSpec, secondSpec]
  rfl

end Workflow.Program
