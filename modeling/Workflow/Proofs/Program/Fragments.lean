import Workflow.Proofs.Program.CallReading
import Workflow.Proofs.Program.Structure
import Workflow.Proofs.Scope.Sites

/-!
# Calls and conditions in the function of the tree

The lines of the function are read one by one, without the tree: a line is a
call, a call whose result is bound, a line that asks a condition, or something
else.  The calls and conditions that are found are those of the nodes of the
tree, each exactly once.  The order may differ, since routes are written before
the rules that lead to them.
-/

namespace Workflow

namespace Program

open SelfCheck

/-- A piece of a line into which lookups may have been put. -/
inductive Fragment where
  | call (text : String)
  | condition (text : String)

namespace Fragment

/-- The condition that a line asks, from the keyword to the colon. -/
def condition? (line : List Char) : Option (List Char) :=
  (behind? "if " line <|> behind? "elif " line).map List.dropLast

/-- The call that a line makes. A result that is bound stands behind the name
in quotes. -/
def call? (line : List Char) : Option (List Char) :=
  match behind? "ctx.set(\"" line with
  | some rest =>
      match Lexeme.unescape? [] rest with
      | some (_, ',' :: ' ' :: bound) => some bound.dropLast
      | _ => none
  | none => if "tool_".toList.isPrefixOf line then some line else none

/-- What a line holds, the blanks in front of it aside. -/
def ofLine? (line : List Char) : Option Fragment :=
  let statement := line.dropWhile (· == ' ')
  match condition? statement with
  | some text => some (.condition (String.ofList text))
  | none => (call? statement).map fun text => .call (String.ofList text)

theorem ofLine?_margin (level : Nat) (line : List Char) :
    ofLine? (margin level ++ line) = ofLine? line := by
  have blanks : ∀ c ∈ margin level, (c == ' ') = true := by
    intro c member
    rw [List.eq_of_mem_replicate member]
    rfl
  rw [ofLine?, List.dropWhile_append_of_pos blanks]
  rfl

theorem condition?_eq_none {line : List Char} (noIf : line.head? ≠ some 'i')
    (noElif : line.head? ≠ some 'e') : condition? line = none := by
  rw [condition?, behind?_eq_none (by simp) noIf,
    behind?_eq_none (by simp) noElif]
  rfl

/-- Lines are told apart by their first letter. -/
theorem ofLine?_eq_none
    {line : List Char} {c : Char} (first : line.head? = some c)
    (other : c ∉ [' ', 'i', 'e', 'c', 't']) :
    ofLine? line = none := by
  obtain ⟨rest, rfl⟩ := List.head?_eq_some_iff.mp first
  simp only [List.mem_cons, List.not_mem_nil, or_false, not_or] at other
  obtain ⟨noBlank, noIf, noElif, noSet, noTool⟩ := other
  have noCondition : condition? (c :: rest) = none :=
    condition?_eq_none (by simpa using noIf) (by simpa using noElif)
  have noCall : call? (c :: rest) = none := by
    rw [call?, behind?_eq_none (c := 'c') (by simp) (by simpa using noSet)]
    simp [List.isPrefixOf, Ne.symm noTool]
  rw [ofLine?, List.dropWhile_cons_of_neg (by simpa using noBlank)]
  simp only [noCondition, noCall, Option.map_none]

theorem ofLine?_if (condition : String) :
    ofLine? ("if " ++ condition ++ ":").toList =
      some (.condition condition) := by
  have shape : ("if " ++ condition ++ ":").toList =
      "if ".toList ++ (condition.toList ++ [':']) := by
    simp
  have noBlank :
      ("if ".toList ++ (condition.toList ++ [':'])).dropWhile (· == ' ') =
        "if ".toList ++ (condition.toList ++ [':']) := by
    simp
  simp only [ofLine?, shape, noBlank, condition?, behind?_append,
    Option.map_some, List.dropLast_concat, String.ofList_toList,
    HOrElse.hOrElse, OrElse.orElse, Option.orElse]

theorem ofLine?_elif (condition : String) :
    ofLine? ("elif " ++ condition ++ ":").toList =
      some (.condition condition) := by
  have shape : ("elif " ++ condition ++ ":").toList =
      "elif ".toList ++ (condition.toList ++ [':']) := by simp
  have noBlank :
      ("elif ".toList ++ (condition.toList ++ [':'])).dropWhile (· == ' ') =
        "elif ".toList ++ (condition.toList ++ [':']) := by
    simp
  have noIf :
      behind? "if " ("elif ".toList ++ (condition.toList ++ [':'])) = none :=
    behind?_eq_none (c := 'i') (by simp) (by simp)
  simp only [ofLine?, shape, noBlank, condition?, noIf, behind?_append,
    Option.map_some, List.dropLast_concat, String.ofList_toList,
    HOrElse.hOrElse, OrElse.orElse, Option.orElse]

theorem ofLine?_else : ofLine? "else:".toList = none := by
  decide

theorem ofLine?_call {tool : String} {rest : String} :
    ofLine? ("tool_" ++ tool ++ rest).toList =
      some (.call ("tool_" ++ tool ++ rest)) := by
  have shape : ("tool_" ++ tool ++ rest).toList =
      't' :: ("ool_".toList ++ (tool.toList ++ rest.toList)) := by simp
  have noSet :
      behind? "ctx.set(\""
        ('t' :: ("ool_".toList ++ (tool.toList ++ rest.toList))) = none :=
    behind?_eq_none (c := 'c') (by simp) (by simp)
  have starts : "tool_".toList.isPrefixOf
      ('t' :: ("ool_".toList ++ (tool.toList ++ rest.toList))) = true := by
    simp [List.isPrefixOf]
  have noCondition :
      condition? ('t' :: ("ool_".toList ++ (tool.toList ++ rest.toList))) =
        none :=
    condition?_eq_none (by simp) (by simp)
  rw [ofLine?, shape, List.dropWhile_cons_of_neg (by simp)]
  simp only [noCondition, call?, noSet, starts, if_true, Option.map_some]
  rw [← shape, String.ofList_toList]

theorem ofLine?_set (target call : String) :
    ofLine? ("ctx.set(" ++ Text.quoted target ++ ", " ++ call ++ ")").toList =
      some (.call call) := by
  have shape :
      ("ctx.set(" ++ Text.quoted target ++ ", " ++ call ++ ")").toList =
        "ctx.set(\"".toList ++
          (target.toList.flatMap Text.escape ++ '"' :: ',' :: ' ' ::
            (call.toList ++ [')'])) := by
    simp [Text.quoted, Text.quotedChars]
  have noBlank :
      ∀ rest : List Char, ("ctx.set(\"".toList ++ rest).dropWhile (· == ' ') =
        "ctx.set(\"".toList ++ rest := by
    simp
  have noCondition :
      ∀ rest : List Char, condition? ("ctx.set(\"".toList ++ rest) = none := by
    intro rest
    exact condition?_eq_none (by simp) (by simp)
  simp only [ofLine?, shape, noBlank, noCondition, call?, behind?_append,
    Lexeme.unescape?_flatMap_escape, List.dropLast_concat,
    String.ofList_toList, Option.map_some]

end Fragment

namespace Code

mutual

/-- The calls and conditions in a piece of code. -/
def fragments : Code → List Fragment
  | .line text => (Fragment.ofLine? text.toList).toList
  | .blank => []
  | .block header body =>
      (Fragment.ofLine? header.toList).toList ++ fragmentsAll body

def fragmentsAll : List Code → List Fragment
  | [] => []
  | code :: rest => fragments code ++ fragmentsAll rest

end

theorem fragmentsAll_append (codes more : List Code) :
    fragmentsAll (codes ++ more) =
      fragmentsAll codes ++ fragmentsAll more := by
  induction codes with
  | nil => rfl
  | cons code codes induction => simp [fragmentsAll, induction]

mutual

/-- They are found in the lines of the code, at any level. -/
theorem filterMap_lines (level : Nat) (code : Code) :
    (lines level code).filterMap Fragment.ofLine? = fragments code := by
  match code with
  | .line text =>
      rw [lines, indentation_toList, List.filterMap_cons,
        Fragment.ofLine?_margin, fragments]
      cases Fragment.ofLine? text.toList <;> rfl
  | .blank => rfl
  | .block header body =>
      rw [lines, indentation_toList, List.filterMap_cons,
        Fragment.ofLine?_margin, fragments,
        filterMap_linesAll (level + 1) body]
      cases Fragment.ofLine? header.toList <;> rfl

theorem filterMap_linesAll (level : Nat) (codes : List Code) :
    (linesAll level codes).filterMap Fragment.ofLine? =
      fragmentsAll codes := by
  match codes with
  | [] => rfl
  | code :: rest =>
      rw [linesAll, List.filterMap_append, filterMap_lines level code,
        filterMap_linesAll level rest, fragmentsAll]

end

end Code

end Program

open Program Code

/-- The calls and conditions that are written for a node itself, and not for
its children. -/
def Site.fragments (site : Site) : List Fragment :=
  match site.node with
  | .call invocation =>
      match callExpression invocation with
      | .ok text => [.call text]
      | .error _ => []
  | .branch condition _ _ => [.condition (conditionExpression condition)]
  | .dispatch _ rules _ =>
      rules.map fun rule => .condition (conditionExpression rule.condition)
  | _ => []

namespace Program

theorem fragments_callLine
    {call : ToolCall} {code : Code} (written : callLine call = .ok code)
    (path : Path) (before : List Node) :
    fragments code = Site.fragments ⟨path, before, .call call⟩ := by
  unfold callLine at written
  split at written
  · cases written
  · rename_i text isText
    simp only [Site.fragments, isText]
    obtain ⟨expressions, _, shape⟩ := bind_eq_ok_iff.mp isText
    split at written
    · obtain rfl := Except.ok.inj written
      rw [fragments, Fragment.ofLine?_set]
      rfl
    · obtain rfl := Except.ok.inj written
      obtain rfl := Except.ok.inj shape
      rw [fragments, String.append_assoc, String.append_assoc,
        Fragment.ofLine?_call]
      rfl

theorem fragments_line_eq_nil
    {text : String} {c : Char} (first : text.toList.head? = some c)
    (other : c ∉ [' ', 'i', 'e', 'c', 't']) :
    fragments (.line text) = [] := by
  rw [fragments, Fragment.ofLine?_eq_none first other]
  rfl

theorem fragments_routeLine (number : Nat) (target : String) :
    fragments (routeLine number target) = [] :=
  fragments_line_eq_nil (c := '_') (by simp [routeName]) (by simp)

theorem fragments_joinLine
    (number : Nat) (branches : List Node) (join : JoinPolicy) :
    fragments (joinLine number branches join) = [] := by
  have other : '_' ∉ [' ', 'i', 'e', 'c', 't'] := by simp
  unfold joinLine
  cases join with
  | waitForAll => exact fragments_line_eq_nil (by simp) other
  | firstToFinish =>
      simp only
      split
      · exact fragments_line_eq_nil (by simp) other
      · exact fragments_line_eq_nil (by simp) other

/-- Whatever its keyword is, every rule asks its condition. -/
theorem fragmentsAll_ruleBlocks
    {keyword : String} (number : Nat) (rules : List Rule)
    (asks : ∀ condition : String,
      Fragment.ofLine? (keyword ++ " " ++ condition ++ ":").toList =
        some (.condition condition)) :
    fragmentsAll (ruleBlocks number keyword rules) =
      rules.map fun rule =>
        .condition (conditionExpression rule.condition) := by
  have asksElif : ∀ condition : String,
      Fragment.ofLine? ("elif" ++ " " ++ condition ++ ":").toList =
        some (.condition condition) := by
    intro condition
    have shape : ("elif" ++ " " ++ condition ++ ":").toList =
        ("elif " ++ condition ++ ":").toList := by simp
    rw [shape, Fragment.ofLine?_elif]
  induction rules generalizing keyword with
  | nil => rfl
  | cons rule rest induction =>
      rw [ruleBlocks, fragmentsAll, fragments, asks, fragmentsAll,
        fragments_routeLine, fragmentsAll, induction asksElif, List.map_cons]
      rfl

theorem fragmentsAll_routeChoice
    {number : Nat} {rules : List Rule} {fallback : Option String}
    {codes : List Code}
    (written : routeChoice number rules fallback = .ok codes) :
    fragmentsAll codes =
      rules.map fun rule =>
        .condition (conditionExpression rule.condition) := by
  have asksIf : ∀ condition : String,
      Fragment.ofLine? ("if" ++ " " ++ condition ++ ":").toList =
        some (.condition condition) := by
    intro condition
    have shape : ("if" ++ " " ++ condition ++ ":").toList =
        ("if " ++ condition ++ ":").toList := by simp
    rw [shape, Fragment.ofLine?_if]
  have pass : fragments (.line "pass") = [] :=
    fragments_line_eq_nil (c := 'p') (by simp) (by simp)
  unfold routeChoice at written
  split at written
  · rename_i target
    obtain rfl := Except.ok.inj written
    rw [fragmentsAll, fragments_routeLine]
    rfl
  · cases written
  · obtain rfl := Except.ok.inj written
    have closing : ∀ last : Code, fragments last = [] →
        fragmentsAll [.block "else:" [last]] = [] := by
      intro last none
      simp only [fragmentsAll, fragments, Fragment.ofLine?_else, none,
        Option.toList_none, List.append_nil]
    rw [fragmentsAll_append, fragmentsAll_ruleBlocks number rules asksIf]
    cases fallback with
    | some target =>
        rw [closing _ (fragments_routeLine number target), List.append_nil]
    | none => rw [closing _ pass, List.append_nil]

theorem fragmentsAll_ifBlock (condition : String) (body rest : List Code) :
    fragmentsAll (.block ("if " ++ condition ++ ":") body :: rest) =
      .condition condition :: (fragmentsAll body ++ fragmentsAll rest) := by
  rw [fragmentsAll, fragments, Fragment.ofLine?_if]
  rfl

/-- The header of a function holds neither a call nor a condition. -/
theorem fragmentsAll_function (name : String) (body rest : List Code) :
    fragmentsAll (.block ("def " ++ name ++ "(ctx):") body :: rest) =
      fragmentsAll body ++ fragmentsAll rest := by
  have none : Fragment.ofLine? ("def " ++ name ++ "(ctx):").toList = none :=
    Fragment.ofLine?_eq_none (c := 'd') (by simp) (by simp)
  rw [fragmentsAll, fragments, none]
  rfl

mutual

/-- The calls and conditions in the code of a tree are those of its nodes. -/
theorem fragmentsAll_treeCode
    {last : Nat} {node : Node} {result : Numbered}
    (written : treeCode last node = .ok result) (path : Path)
    (before : List Node) :
    (fragmentsAll result.code).Perm
      ((node.sites path before).flatMap Site.fragments) := by
  match node with
  | .call invocation =>
      obtain ⟨line, isLine, returned⟩ := bind_eq_ok_iff.mp written
      obtain rfl := Except.ok.inj returned
      have same := fragments_callLine isLine path before
      simp [fragmentsAll, Node.sites, same]
  | .sequence steps =>
      have each := fragmentsAll_stepCode written path 0 before
      simpa [Node.sites, Site.fragments] using each
  | .branch condition whenTrue none =>
      obtain ⟨first, isFirst, returned⟩ := bind_eq_ok_iff.mp written
      obtain rfl := Except.ok.inj returned
      have inTrue :=
        fragmentsAll_treeCode isFirst (.field path "if_true") before
      rw [fragmentsAll_ifBlock, fragmentsAll]
      simpa [Node.sites, Site.fragments] using inTrue
  | .branch condition whenTrue (some otherwise) =>
      obtain ⟨first, isFirst, returned⟩ := bind_eq_ok_iff.mp written
      obtain ⟨second, isSecond, returned⟩ := bind_eq_ok_iff.mp returned
      obtain rfl := Except.ok.inj returned
      have inTrue :=
        fragmentsAll_treeCode isFirst (.field path "if_true") before
      have inFalse :=
        fragmentsAll_treeCode isSecond (.field path "if_false") before
      rw [fragmentsAll_ifBlock]
      simp only [fragmentsAll, fragments, Fragment.ofLine?_else,
        Option.toList_none, List.nil_append, List.append_nil]
      simpa [Node.sites, Site.fragments] using inTrue.append inFalse
  | .fanout branches join =>
      obtain ⟨units, isUnits, returned⟩ := bind_eq_ok_iff.mp written
      obtain rfl := Except.ok.inj returned
      have each := fragmentsAll_unitCode isUnits path 0 before
      rw [fragmentsAll_append, fragmentsAll, fragments_joinLine]
      simpa [fragmentsAll, Node.sites, Site.fragments] using each
  | .dispatch routes rules fallback =>
      obtain ⟨functions, isFunctions, returned⟩ := bind_eq_ok_iff.mp written
      obtain ⟨choice, isChoice, returned⟩ := bind_eq_ok_iff.mp returned
      obtain rfl := Except.ok.inj returned
      have each :=
        fragmentsAll_routeCode isFunctions (.field path "sub_workflows") before
      rw [fragmentsAll_append, fragmentsAll_routeChoice isChoice]
      -- the functions of the routes stand before the rules
      refine List.perm_append_comm.trans ?_
      simpa [Node.sites, Site.fragments] using each.append_left _
termination_by structural node

theorem fragmentsAll_stepCode
    {last : Nat} {steps : List Node} {result : Numbered}
    (written : stepCode last steps = .ok result) (path : Path) (position : Nat)
    (before : List Node) :
    (fragmentsAll result.code).Perm
      ((Node.sitesSteps path position before steps).flatMap
        Site.fragments) := by
  match steps with
  | [] =>
      obtain rfl := Except.ok.inj written
      exact .nil
  | node :: rest =>
      obtain ⟨first, isFirst, returned⟩ := bind_eq_ok_iff.mp written
      obtain ⟨later, isLater, returned⟩ := bind_eq_ok_iff.mp returned
      obtain rfl := Except.ok.inj returned
      have inNode :=
        fragmentsAll_treeCode isFirst (path.item "steps" position) before
      have inRest :=
        fragmentsAll_stepCode isLater path (position + 1) (before ++ [node])
      rw [fragmentsAll_append, Node.sitesSteps, List.flatMap_append]
      exact inNode.append inRest
termination_by structural steps

theorem fragmentsAll_unitCode
    {number last offset : Nat} {branches : List Node} {result : Numbered}
    (written : unitCode number last offset branches = .ok result) (path : Path)
    (position : Nat) (before : List Node) :
    (fragmentsAll result.code).Perm
      ((Node.sitesBranches path position before branches).flatMap
        Site.fragments) := by
  match branches with
  | [] =>
      obtain rfl := Except.ok.inj written
      exact .nil
  | node :: rest =>
      obtain ⟨first, isFirst, returned⟩ := bind_eq_ok_iff.mp written
      obtain ⟨later, isLater, returned⟩ := bind_eq_ok_iff.mp returned
      obtain rfl := Except.ok.inj returned
      have inNode :=
        fragmentsAll_treeCode isFirst (path.item "branches" position) before
      have inRest := fragmentsAll_unitCode isLater path (position + 1) before
      rw [fragmentsAll_function, Node.sitesBranches, List.flatMap_append]
      exact inNode.append inRest
termination_by structural branches

theorem fragmentsAll_routeCode
    {number last : Nat} {routes : List (String × Node)} {result : Numbered}
    (written : routeCode number last routes = .ok result) (path : Path)
    (before : List Node) :
    (fragmentsAll result.code).Perm
      ((Node.sitesRoutes path before routes).flatMap Site.fragments) := by
  match routes with
  | [] =>
      obtain rfl := Except.ok.inj written
      exact .nil
  | (name, node) :: rest =>
      obtain ⟨first, isFirst, returned⟩ := bind_eq_ok_iff.mp written
      obtain ⟨later, isLater, returned⟩ := bind_eq_ok_iff.mp returned
      obtain rfl := Except.ok.inj returned
      have inNode := fragmentsAll_treeCode isFirst (.field path name) before
      have inRest := fragmentsAll_routeCode isLater path before
      rw [fragmentsAll_function, Node.sitesRoutes, List.flatMap_append]
      exact inNode.append inRest
termination_by structural routes

end

/-- The calls and conditions that are found in the lines of the tree are those
of its nodes. -/
theorem fragments_treeLines
    {spec : Spec} (lawful : spec.workflow.Lawful) (path : Path) :
    ((lines 0 (treeBlock spec)).filterMap Fragment.ofLine?).Perm
      ((spec.workflow.sites path []).flatMap Site.fragments) := by
  have none : Fragment.ofLine? "def _workflow(ctx):".toList = none := by decide
  rw [filterMap_lines, treeBlock, fragments, none]
  exact fragmentsAll_treeCode (treeCode_eq_emitAll 0 lawful) path []

end Program

end Workflow
