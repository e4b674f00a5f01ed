import Workflow.Proofs.Program.Scoping

/-!
# Names in the code of a tree

The code of a lawful tree defines the functions of the tree, each where the
walk through the tree comes to it.  A function is used only behind its
definition, in the block that defines it or deeper.
-/

namespace Workflow.Program

open Code
open Node (unitFunctions routeFunctions)

/-- Lines that start with another letter neither use nor define functions. -/
theorem nameless
    {text : String} {c : Char} (first : text.toList.head? = some c)
    (other : c ∉ [' ', '_', 'd']) :
    usedNames text.toList = [] ∧ definedName? text.toList = none := by
  simp only [List.mem_cons, List.not_mem_nil, or_false, not_or] at other
  constructor
  · apply usedNames_eq_nil
    all_goals simp [first, other]
  · apply definedName?_eq_none
    all_goals simp [first, other]

/-- The functions that code defines, in the order of its lines. -/
def definitions (level : Nat) (codes : List Code) : List String :=
  (linesAll level codes).filterMap definedName?

theorem definitions_append (level : Nat) (codes more : List Code) :
    definitions level (codes ++ more) =
      definitions level codes ++ definitions level more := by
  rw [definitions, linesAll_append, List.filterMap_append]
  rfl

theorem definitions_line
    {text : String} (none : definedName? text.toList = none) (level : Nat)
    (rest : List Code) :
    definitions level (.line text :: rest) = definitions level rest := by
  rw [definitions, linesAll, lines, indentation_toList, List.singleton_append,
    List.filterMap_cons_none (by rw [definedName?_margin, none])]
  rfl

theorem definitions_block
    {header : String} (none : definedName? header.toList = none) (level : Nat)
    (body rest : List Code) :
    definitions level (.block header body :: rest) =
      definitions (level + 1) body ++ definitions level rest := by
  rw [definitions, linesAll, lines, indentation_toList, List.cons_append,
    List.filterMap_cons_none (by rw [definedName?_margin, none]),
    List.filterMap_append]
  rfl

/-- A block that defines nothing is resolved with what is known around it. -/
theorem resolvedAll_block
    {header : String} {c : Char} (starts : header.toList.head? = some c)
    (other : c ∉ [' ', '_', 'd']) {known : List String} {body rest : List Code}
    (ofBody : ResolvedAll known body) (ofRest : ResolvedAll known rest) :
    ResolvedAll known (.block header body :: rest) := by
  obtain ⟨usesNone, definesNone⟩ := nameless starts other
  simp only [ResolvedAll, Resolved, introduces, usesNone, definesNone,
    List.nil_subset, Option.isSome_none, Bool.false_eq_true, if_false,
    Option.toList_none, List.nil_append, true_and]
  exact ⟨ofBody, ofRest⟩

theorem definitions_function
    {name : String} (isName : IsName name) (level : Nat)
    (body rest : List Code) :
    definitions level (.block ("def " ++ name ++ "(ctx):") body :: rest) =
      name :: (definitions (level + 1) body ++ definitions level rest) := by
  have defined :
      definedName? (margin level ++ ("def " ++ name ++ "(ctx):").toList) =
        some name := by
    rw [definedName?_margin, definedName?_function isName]
  rw [definitions, linesAll, lines, indentation_toList, List.cons_append,
    List.filterMap_cons_some defined, List.filterMap_append]
  rfl

/-- Code that defines no functions and uses known ones only. -/
structure Relies (known : List String) (codes : List Code) : Prop where
  resolved : ResolvedAll known codes
  definesNone : ∀ level, definitions level codes = []

namespace Relies

variable {known : List String} {codes : List Code}

theorem nil : Relies known [] :=
  ⟨trivial, fun _ => rfl⟩

theorem line
    {text : String} (uses : usedNames text.toList ⊆ known)
    (definesNone : definedName? text.toList = none)
    (rest : Relies known codes) :
    Relies known (.line text :: codes) where
  resolved := ⟨uses, rest.resolved⟩
  definesNone level := by rw [definitions_line definesNone, rest.definesNone]

theorem block
    {header : String} {c : Char} (starts : header.toList.head? = some c)
    (other : c ∉ [' ', '_', 'd']) {body : List Code}
    (ofBody : Relies known body) (rest : Relies known codes) :
    Relies known (.block header body :: codes) where
  resolved := resolvedAll_block starts other ofBody.resolved rest.resolved
  definesNone level := by
    rw [definitions_block (nameless starts other).2, ofBody.definesNone,
      rest.definesNone, List.append_nil]

end Relies

/-- Code that defines the functions given, and uses only what it has defined
before.  The functions of the node that is being walked are introduced at the
level of the code itself. -/
structure Named (functions own : List LocalFunction) (codes : List Code) :
    Prop where
  defined : ∀ level, definitions level codes = functions.map LocalFunction.name
  resolved : ResolvedAll [] codes
  introduced :
      ∀ function ∈ own, ∃ code ∈ codes, function.name ∈ introduces code

namespace Named

theorem nil : Named [] [] [] where
  defined _ := rfl
  resolved := trivial
  introduced := List.forall_mem_nil _

theorem line {text : String} {c : Char} (starts : text.toList.head? = some c)
    (other : c ∉ [' ', '_', 'd']) : Named [] [] [.line text] where
  defined level := by
    rw [definitions_line (nameless starts other).2]
    rfl
  resolved := by
    refine ⟨?_, trivial⟩
    rw [Resolved, (nameless starts other).1]
    exact List.nil_subset []
  introduced := List.forall_mem_nil _

variable {functions later own : List LocalFunction} {codes rest : List Code}

theorem append
    (first : Named functions [] codes) (second : Named later [] rest) :
    Named (functions ++ later) [] (codes ++ rest) where
  defined level := by
    rw [definitions_append, first.defined, second.defined, List.map_append]
  resolved := first.resolved.append second.resolved (List.forall_mem_nil _)
  introduced := List.forall_mem_nil _

/-- A block that defines nothing, such as one of the sides of a branch. -/
theorem block
    {header : String} {c : Char} (starts : header.toList.head? = some c)
    (other : c ∉ [' ', '_', 'd']) (first : Named functions [] codes)
    (second : Named later [] rest) :
    Named (functions ++ later) [] (.block header codes :: rest) where
  defined level := by
    rw [definitions_block (nameless starts other).2, first.defined,
      second.defined, List.map_append]
  resolved := resolvedAll_block starts other first.resolved second.resolved
  introduced := List.forall_mem_nil _

theorem lastBlock
    {header : String} {c : Char} (starts : header.toList.head? = some c)
    (other : c ∉ [' ', '_', 'd']) (named : Named functions [] codes) :
    Named functions [] [.block header codes] := by
  have whole := block starts other named .nil
  rwa [List.append_nil] at whole

/-- A function in front of other functions of the same node. -/
theorem function {function : LocalFunction} (isName : IsName function.name)
    (first : Named functions [] codes) (second : Named later own rest) :
    Named (function :: (functions ++ later)) (function :: own)
      (.block ("def " ++ function.name ++ "(ctx):") codes :: rest) where
  defined level := by
    rw [definitions_function isName, first.defined, second.defined,
      List.map_cons, List.map_append]
  resolved := by
    have usesNone :
        usedNames ("def " ++ function.name ++ "(ctx):").toList = [] :=
      usedNames_eq_nil (by simp) (by simp)
    simp only [ResolvedAll, Resolved, usesNone, definedName?_function isName,
      List.nil_subset, Option.isSome_some, if_true, true_and]
    exact ⟨first.resolved, second.resolved.mono (List.nil_subset _)⟩
  introduced := by
    rw [List.forall_mem_cons]
    constructor
    · refine ⟨_, List.mem_cons_self, ?_⟩
      rw [introduces, definedName?_function isName]
      exact List.mem_singleton_self function.name
    · intro other member
      obtain ⟨code, inCode, isIntroduced⟩ := second.introduced other member
      exact ⟨code, List.mem_cons_of_mem _ inCode, isIntroduced⟩

/-- The functions of a node and the code that uses them. -/
theorem close {choice : List Code} (ofFunctions : Named functions own codes)
    (relies : Relies (own.map LocalFunction.name) choice) :
    Named functions [] (codes ++ choice) where
  defined level := by
    rw [definitions_append, relies.definesNone, List.append_nil,
      ofFunctions.defined]
  resolved := by
    apply ofFunctions.resolved.append relies.resolved
    intro name member
    obtain ⟨function, isOwn, rfl⟩ := List.mem_map.mp member
    exact .inr (ofFunctions.introduced function isOwn)
  introduced := List.forall_mem_nil _

end Named

theorem named_callLine
    {call : ToolCall} {code : Code} (written : callLine call = .ok code) :
    Named [] [] [code] := by
  unfold callLine at written
  split at written
  · cases written
  · rename_i text isText
    split at written
    · obtain rfl := Except.ok.inj written
      exact .line (c := 'c') (by simp) (by simp)
    · obtain rfl := Except.ok.inj written
      obtain ⟨expressions, _, shape⟩ := bind_eq_ok_iff.mp isText
      obtain rfl := Except.ok.inj shape
      exact .line (c := 't') (by simp) (by simp)

/-- The line that runs branches uses the function of each. -/
theorem relies_joinLine
    (number : Nat) {branches : List Node} (join : JoinPolicy)
    (several : 2 ≤ branches.length) :
    Relies ((unitFunctions number 0 branches.length).map LocalFunction.name)
      [joinLine number branches join] := by
  have sameNames :
      (unitFunctions number 0 branches.length).map LocalFunction.name =
        (List.range branches.length).map (unitName number) := by
    rw [unitFunctions, List.map_map, ← List.range_eq_range']
    rfl
  have areNames : ∀ name ∈ (List.range branches.length).map (unitName number),
      IsName name := by
    rw [List.forall_mem_map]
    intro position _
    exact .unit number position
  have notEmpty : (List.range branches.length).map (unitName number) ≠ [] := by
    rw [Ne, List.map_eq_nil_iff, List.range_eq_nil]
    omega
  have ofLine {text : String} (starts : text.toList.head? = some '_')
      (uses : usedNames text.toList =
        (List.range branches.length).map (unitName number)) :
      Relies ((List.range branches.length).map (unitName number))
        [.line text] := by
    refine .line ?_
      (definedName?_eq_none (by simp [starts]) (by simp [starts])) .nil
    rw [uses]
    exact List.Subset.refl _
  rw [sameNames]
  unfold joinLine
  cases join with
  | waitForAll =>
      exact ofLine (by simp) (usedNames_run areNames notEmpty (.inl rfl) ")")
  | firstToFinish =>
      simp only
      split
      · exact ofLine (by simp) (usedNames_run areNames notEmpty (.inr rfl) ")")
      · refine ofLine (by simp) ?_
        rw [String.append_assoc, String.append_assoc]
        exact usedNames_run areNames notEmpty (.inr rfl) _

section

variable {number : Nat} {names : List String}
  (identifiers : ∀ name ∈ names, isIdentifier name = true)

include identifiers

theorem relies_routeLine {target : String} (known : target ∈ names) :
    Relies ((routeFunctions number names).map LocalFunction.name)
      [routeLine number target] := by
  have member : routeName number target ∈
      (routeFunctions number names).map LocalFunction.name := by
    rw [routeFunctions, List.map_map]
    exact List.mem_map_of_mem known
  refine .line ?_
    (definedName?_eq_none (by simp [routeName]) (by simp [routeName])) .nil
  rw [usedNames_routeLine number (identifiers target known)]
  exact List.cons_subset.mpr ⟨member, List.nil_subset _⟩

theorem relies_ruleBlocks
    {keyword : String} {c : Char} (starts : keyword.toList.head? = some c)
    (other : c ∉ [' ', '_', 'd']) {rules : List Rule}
    (known : ∀ rule ∈ rules, rule.target ∈ names) {rest : List Code}
    (ofRest :
      Relies ((routeFunctions number names).map LocalFunction.name) rest) :
    Relies ((routeFunctions number names).map LocalFunction.name)
      (ruleBlocks number keyword rules ++ rest) := by
  induction rules generalizing keyword c with
  | nil => exact ofRest
  | cons rule rules induction =>
      obtain ⟨here, later⟩ := List.forall_mem_cons.mp known
      have header :
          (keyword ++ " " ++ conditionExpression rule.condition ++
            ":").toList.head? = some c := by
        simp [starts]
      exact .block header other (relies_routeLine identifiers here)
        (induction (c := 'e') (by simp) (by simp) later)

/-- Rules and default lead to functions of the node. -/
theorem relies_routeChoice
    {rules : List Rule} {fallback : Option String} {codes : List Code}
    (routing : LawfulRouting names rules fallback)
    (written : routeChoice number rules fallback = .ok codes) :
    Relies ((routeFunctions number names).map LocalFunction.name) codes := by
  have toRules : ∀ rule ∈ rules, rule.target ∈ names := by
    intro rule member
    exact (routing.ofRule rule member).2
  have closing {last : Code}
      (ofLast :
        Relies ((routeFunctions number names).map LocalFunction.name) [last]) :
      Relies ((routeFunctions number names).map LocalFunction.name)
        (ruleBlocks number "if" rules ++ [.block "else:" [last]]) :=
    relies_ruleBlocks identifiers (c := 'i') (by simp) (by simp) toRules
      (.block (c := 'e') (by simp) (by simp) ofLast .nil)
  unfold routeChoice at written
  split at written
  · rename_i target
    obtain rfl := Except.ok.inj written
    exact relies_routeLine identifiers (routing.ofFallback target rfl)
  · cases written
  · obtain rfl := Except.ok.inj written
    cases fallback with
    | some target =>
        exact closing
          (relies_routeLine identifiers (routing.ofFallback target rfl))
    | none =>
        obtain ⟨usesNone, definesNone⟩ :
            usedNames "pass".toList = [] ∧ definedName? "pass".toList = none :=
          nameless (c := 'p') (by simp) (by simp)
        apply closing
        refine .line ?_ definesNone .nil
        rw [usesNone]
        exact List.nil_subset _

end

mutual

/-- The code of a lawful tree takes as many numbers as the tree has numbered
nodes, and defines the functions of the tree. -/
theorem named_treeCode
    {last : Nat} {node : Node} {result : Numbered} (lawful : node.Lawful)
    (written : treeCode last node = .ok result) :
    result.last = last + node.numbered ∧
    Named (node.functions last) [] result.code := by
  match node with
  | .call invocation =>
      obtain ⟨line, isLine, returned⟩ := bind_eq_ok_iff.mp written
      obtain rfl := Except.ok.inj returned
      exact ⟨rfl, named_callLine isLine⟩
  | .sequence steps => exact named_stepCode lawful.2 written
  | .branch condition whenTrue none =>
      obtain ⟨first, isFirst, returned⟩ := bind_eq_ok_iff.mp written
      obtain rfl := Except.ok.inj returned
      obtain ⟨grows, named⟩ := named_treeCode lawful.2 isFirst
      exact ⟨grows, named.lastBlock (c := 'i') (by simp) (by simp)⟩
  | .branch condition whenTrue (some otherwise) =>
      obtain ⟨first, isFirst, returned⟩ := bind_eq_ok_iff.mp written
      obtain ⟨second, isSecond, returned⟩ := bind_eq_ok_iff.mp returned
      obtain rfl := Except.ok.inj returned
      obtain ⟨grows, named⟩ := named_treeCode lawful.2.1 isFirst
      obtain ⟨growsLater, namedLater⟩ := named_treeCode lawful.2.2 isSecond
      rw [grows] at growsLater namedLater
      have other : Named (otherwise.functions (last + whenTrue.numbered)) []
          [.block "else:" second.code] :=
        namedLater.lastBlock (c := 'e') (by simp) (by simp)
      exact ⟨by rw [growsLater, Node.numbered, Nat.add_assoc],
        .block (c := 'i') (by simp) (by simp) named other⟩
  | .fanout branches join =>
      obtain ⟨units, isUnits, returned⟩ := bind_eq_ok_iff.mp written
      obtain rfl := Except.ok.inj returned
      obtain ⟨grows, named⟩ := named_unitCode lawful.2 isUnits
      refine ⟨?_, named.close (relies_joinLine (last + 1) join lawful.1)⟩
      rw [grows, Node.numbered, Nat.add_assoc]
  | .dispatch routes rules fallback =>
      obtain ⟨functions, isFunctions, returned⟩ := bind_eq_ok_iff.mp written
      obtain ⟨choice, isChoice, returned⟩ := bind_eq_ok_iff.mp returned
      obtain rfl := Except.ok.inj returned
      obtain ⟨_, _, lawfulRoutes, routing⟩ := lawful
      have identifiers :
          ∀ name ∈ routes.map Prod.fst, isIdentifier name = true := by
        rw [List.forall_mem_map]
        intro route member
        exact (Node.lawfulRoutes_iff.mp lawfulRoutes route member).1
      obtain ⟨grows, named⟩ := named_routeCode lawfulRoutes isFunctions
      refine ⟨?_,
        named.close (relies_routeChoice identifiers routing isChoice)⟩
      rw [grows, Node.numbered, Nat.add_assoc]
termination_by structural node

theorem named_stepCode
    {last : Nat} {steps : List Node} {result : Numbered}
    (lawful : Node.LawfulList steps)
    (written : stepCode last steps = .ok result) :
    result.last = last + Node.numberedList steps ∧
      Named (Node.functionsSteps last steps) [] result.code := by
  match steps with
  | [] =>
      obtain rfl := Except.ok.inj written
      exact ⟨rfl, .nil⟩
  | node :: rest =>
      obtain ⟨first, isFirst, returned⟩ := bind_eq_ok_iff.mp written
      obtain ⟨later, isLater, returned⟩ := bind_eq_ok_iff.mp returned
      obtain rfl := Except.ok.inj returned
      obtain ⟨grows, named⟩ := named_treeCode lawful.1 isFirst
      obtain ⟨growsLater, namedLater⟩ := named_stepCode lawful.2 isLater
      rw [grows] at growsLater namedLater
      exact ⟨by rw [growsLater, Node.numberedList, Nat.add_assoc],
        named.append namedLater⟩
termination_by structural steps

theorem named_unitCode
    {number last position : Nat} {branches : List Node} {result : Numbered}
    (lawful : Node.LawfulList branches)
    (written : unitCode number last position branches = .ok result) :
    result.last = last + Node.numberedList branches ∧
      Named (Node.functionsBranches number last position branches)
        (unitFunctions number position branches.length) result.code := by
  match branches with
  | [] =>
      obtain rfl := Except.ok.inj written
      exact ⟨rfl, .nil⟩
  | node :: rest =>
      obtain ⟨first, isFirst, returned⟩ := bind_eq_ok_iff.mp written
      obtain ⟨later, isLater, returned⟩ := bind_eq_ok_iff.mp returned
      obtain rfl := Except.ok.inj returned
      obtain ⟨grows, named⟩ := named_treeCode lawful.1 isFirst
      obtain ⟨growsLater, namedLater⟩ := named_unitCode lawful.2 isLater
      rw [grows] at growsLater namedLater
      exact ⟨by rw [growsLater, Node.numberedList, Nat.add_assoc],
        .function (.unit number position) named namedLater⟩
termination_by structural branches

theorem named_routeCode
    {number last : Nat} {routes : List (String × Node)} {result : Numbered}
    (lawful : Node.LawfulRoutes routes)
    (written : routeCode number last routes = .ok result) :
    result.last = last + Node.numberedRoutes routes ∧
      Named (Node.functionsRoutes number last routes)
        (routeFunctions number (routes.map Prod.fst)) result.code := by
  match routes with
  | [] =>
      obtain rfl := Except.ok.inj written
      exact ⟨rfl, .nil⟩
  | (name, node) :: rest =>
      obtain ⟨first, isFirst, returned⟩ := bind_eq_ok_iff.mp written
      obtain ⟨later, isLater, returned⟩ := bind_eq_ok_iff.mp returned
      obtain rfl := Except.ok.inj returned
      obtain ⟨identifier, ofNode, ofRest⟩ := lawful
      obtain ⟨grows, named⟩ := named_treeCode ofNode isFirst
      obtain ⟨growsLater, namedLater⟩ := named_routeCode ofRest isLater
      rw [grows] at growsLater namedLater
      exact ⟨by rw [growsLater, Node.numberedRoutes, Nat.add_assoc],
        .function (.route number identifier) named namedLater⟩
termination_by structural routes

end

end Workflow.Program
