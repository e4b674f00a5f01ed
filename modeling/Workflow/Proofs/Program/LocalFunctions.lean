import Workflow.Proofs.Program.Fragments

/-!
# Functions inside the function of the tree

A branch that runs beside others and a route of an orchestrator have a function
of their own, and its name tells which one it is.  A lawful tree has no
function twice, because nodes have increasing numbers and routes of one node
have different names.  Lines are read without the tree: which function a line
defines, and which it uses.
-/

namespace Workflow

namespace Program

open SelfCheck Code

/-- A function inside the function of the tree, with the number of the node it
belongs to. -/
inductive LocalFunction where
  | unit (number position : Nat)
  | route (number : Nat) (name : String)

namespace LocalFunction

def number : LocalFunction → Nat
  | .unit number _ => number
  | .route number _ => number

def name : LocalFunction → String
  | .unit number position => unitName number position
  | .route number name => routeName number name

theorem toString_injective
    {left right : Nat}
    (same : (toString left).toList = (toString right).toList) :
    left = right := by
  have digits : Nat.toDigits 10 left = Nat.toDigits 10 right := by
    simpa using same
  rw [← Number.ofDigits_toDigits left, digits, Number.ofDigits_toDigits]

theorem isDigit_of_mem_toString
    {n : Nat} {c : Char} (member : c ∈ (toString n).toList) :
    c.isDigit = true := by
  apply Number.isDigit_of_mem_toDigits
  simpa using member

/-- Different functions have different names. -/
theorem name_injective : Function.Injective LocalFunction.name := by
  have noScore (n : Nat) : '_' ∉ (toString n).toList := by
    intro member
    cases isDigit_of_mem_toString member
  intro left right same
  rw [← String.toList_inj] at same
  cases left with
  | unit number position =>
      cases right with
      | unit other place =>
          simp only [name, unitName, String.toList_append, List.append_assoc,
            List.append_cancel_left_eq] at same
          obtain ⟨numbers, behind⟩ :=
            eq_of_append_cons_eq (noScore number) (noScore other) same
          obtain rfl := toString_injective numbers
          obtain rfl := toString_injective (List.append_cancel_left behind)
          rfl
      | route other route => simp [name, unitName, routeName] at same
  | route number route =>
      cases right with
      | unit other place => simp [name, unitName, routeName] at same
      | route other second =>
          simp only [name, routeName, String.toList_append, List.append_assoc,
            List.append_cancel_left_eq] at same
          obtain ⟨numbers, behind⟩ :=
            eq_of_append_cons_eq (noScore number) (noScore other) same
          obtain rfl := toString_injective numbers
          obtain rfl := String.toList_inj.mp behind
          rfl

end LocalFunction

/-- A text that only letters, digits and underscores occur in. -/
def IsName (text : String) : Prop :=
  ∀ c ∈ text.toList, Reference.isFieldChar c = true

namespace IsName

theorem append
    {left right : String} (ofLeft : IsName left) (ofRight : IsName right) :
    IsName (left ++ right) := by
  rw [IsName, String.toList_append]
  exact List.forall_mem_append.mpr ⟨ofLeft, ofRight⟩

theorem digits (n : Nat) : IsName (toString n) := by
  intro c member
  exact isFieldChar_of_isDigit (LocalFunction.isDigit_of_mem_toString member)

theorem unit (number position : Nat) : IsName (unitName number position) := by
  have front : IsName "_fanout" := by simp [IsName, Reference.isFieldChar]
  have middle : IsName "_unit" := by simp [IsName, Reference.isFieldChar]
  exact ((front.append (digits number)).append middle).append (digits position)

theorem route
    (number : Nat) {name : String} (identifier : isIdentifier name = true) :
    IsName (routeName number name) := by
  have front : IsName "_route" := by simp [IsName, Reference.isFieldChar]
  have middle : IsName "_" := by simp [IsName, Reference.isFieldChar]
  have last : IsName name :=
    fun c member => isFieldChar_of_isIdentifier identifier member
  exact ((front.append (digits number)).append middle).append last

/-- A name is cut off at the first sign that belongs to no name. -/
theorem takeWhile {name : String} (isName : IsName name) {c : Char}
    (noField : Reference.isFieldChar c = false) (rest : List Char) :
    (name.toList ++ c :: rest).takeWhile (· != c) = name.toList := by
  have others : ∀ d ∈ name.toList, (d != c) = true := by
    intro d member
    rw [bne_iff_ne]
    rintro rfl
    simp [isName d member] at noField
  rw [List.takeWhile_append_of_pos others,
    List.takeWhile_cons_of_neg (by simp), List.append_nil]

end IsName

end Program

namespace Node

open Program

mutual

/-- How many nodes of a tree have functions. -/
def numbered : Node → Nat
  | .call _ => 0
  | .sequence steps => numberedList steps
  | .branch _ whenTrue none => numbered whenTrue
  | .branch _ whenTrue (some otherwise) =>
      numbered whenTrue + numbered otherwise
  | .fanout branches _ => 1 + numberedList branches
  | .dispatch routes _ _ => 1 + numberedRoutes routes

def numberedList : List Node → Nat
  | [] => 0
  | node :: rest => numbered node + numberedList rest

def numberedRoutes : List (String × Node) → Nat
  | [] => 0
  | (_, node) :: rest => numbered node + numberedRoutes rest

end

mutual

/-- The functions of a tree: one for each branch that runs beside others and
for each route.  Nodes are numbered in the order in which they are met, from
the number behind `last` on. -/
def functions (last : Nat) : Node → List LocalFunction
  | .call _ => []
  | .sequence steps => functionsSteps last steps
  | .branch _ whenTrue none => functions last whenTrue
  | .branch _ whenTrue (some otherwise) =>
      functions last whenTrue ++ functions (last + numbered whenTrue) otherwise
  | .fanout branches _ => functionsBranches (last + 1) (last + 1) 0 branches
  | .dispatch routes _ _ => functionsRoutes (last + 1) (last + 1) routes

def functionsSteps (last : Nat) : List Node → List LocalFunction
  | [] => []
  | node :: rest =>
      functions last node ++ functionsSteps (last + numbered node) rest

def functionsBranches (number last position : Nat) :
    List Node → List LocalFunction
  | [] => []
  | node :: rest =>
      .unit number position :: (functions last node ++
        functionsBranches number (last + numbered node) (position + 1) rest)

def functionsRoutes (number last : Nat) :
    List (String × Node) → List LocalFunction
  | [] => []
  | (name, node) :: rest =>
      .route number name :: (functions last node ++
        functionsRoutes number (last + numbered node) rest)

end

/-- The functions of branches from a position on. -/
def unitFunctions (number position count : Nat) : List LocalFunction :=
  (List.range' position count).map (.unit number)

def routeFunctions (number : Nat) (names : List String) : List LocalFunction :=
  names.map (.route number)

theorem number_of_mem_unitFunctions
    {number position count : Nat} {function : LocalFunction}
    (member : function ∈ unitFunctions number position count) :
    function.number = number := by
  obtain ⟨_, _, rfl⟩ := List.mem_map.mp member
  rfl

theorem number_of_mem_routeFunctions
    {number : Nat} {names : List String} {function : LocalFunction}
    (member : function ∈ routeFunctions number names) :
    function.number = number := by
  obtain ⟨_, _, rfl⟩ := List.mem_map.mp member
  rfl

/-- Different functions.  Some belong to a node that is being walked; the
others have numbers behind one number and up to another. -/
structure Distinct
    (own : List LocalFunction) (last next : Nat)
    (functions : List LocalFunction) : Prop where
  nodup : functions.Nodup
  each : ∀ function ∈ functions,
    function ∈ own ∨ last < function.number ∧ function.number ≤ next

namespace Distinct

variable {own functions more : List LocalFunction} {last count others : Nat}

theorem nil (last next : Nat) : Distinct [] last next [] :=
  ⟨List.nodup_nil, List.forall_mem_nil _⟩

theorem append (first : Distinct [] last (last + count) functions)
    (second : Distinct [] (last + count) (last + count + others) more) :
    Distinct [] last (last + (count + others)) (functions ++ more) where
  nodup := by
    refine List.nodup_append.mpr ⟨first.nodup, second.nodup, ?_⟩
    rintro function member _ inMore rfl
    have early := first.each function member
    have late := second.each function inMore
    simp only [List.not_mem_nil, false_or] at early late
    omega
  each := by
    rw [List.forall_mem_append]
    constructor
    · intro function member
      have early := first.each function member
      simp only [List.not_mem_nil, false_or] at early ⊢
      omega
    · intro function member
      have late := second.each function member
      simp only [List.not_mem_nil, false_or] at late ⊢
      omega

/-- A function of a node, those of the tree behind it, and the next ones of the
node. -/
theorem cons {function : LocalFunction} (new : function ∉ own)
    (numbered : ∀ other ∈ function :: own, other.number ≤ last)
    (first : Distinct [] last (last + count) functions)
    (second : Distinct own (last + count) (last + count + others) more) :
    Distinct (function :: own) last (last + (count + others))
      (function :: (functions ++ more)) where
  nodup := by
    obtain ⟨atMost, ownAtMost⟩ := List.forall_mem_cons.mp numbered
    have early : ∀ other ∈ functions,
        last < other.number ∧ other.number ≤ last + count := by
      simpa using first.each
    refine List.nodup_cons.mpr
      ⟨?_, List.nodup_append.mpr ⟨first.nodup, second.nodup, ?_⟩⟩
    · rw [List.mem_append]
      rintro (member | member)
      · have above := early function member
        omega
      · rcases second.each function member with isOwn | above
        · exact new isOwn
        · omega
    · rintro other member _ inMore rfl
      have above := early other member
      rcases second.each other inMore with isOwn | later
      · have atLast := ownAtMost other isOwn
        omega
      · omega
  each := by
    rw [List.forall_mem_cons, List.forall_mem_append]
    refine ⟨.inl List.mem_cons_self, ?_, ?_⟩
    · intro other member
      have early := first.each other member
      simp only [List.not_mem_nil, false_or] at early
      exact .inr (by omega)
    · intro other member
      rcases second.each other member with isOwn | later
      · exact .inl (List.mem_cons_of_mem function isOwn)
      · exact .inr (by omega)

/-- A node has the next number. -/
theorem close (distinct : Distinct own (last + 1) (last + 1 + count) functions)
    (numbered : ∀ function ∈ own, function.number = last + 1) :
    Distinct [] last (last + (1 + count)) functions where
  nodup := distinct.nodup
  each := by
    intro function member
    rcases distinct.each function member with isOwn | later
    · have atNode := numbered function isOwn
      exact .inr (by omega)
    · exact .inr (by omega)

end Distinct

mutual

/-- The functions of a lawful tree are different, since no two nodes have the
same number. -/
theorem distinct_functions {node : Node} (lawful : node.Lawful) (last : Nat) :
    Distinct [] last (last + node.numbered) (node.functions last) := by
  match node with
  | .call _ => exact .nil _ _
  | .sequence steps => exact distinct_functionsSteps lawful.2 last
  | .branch _ whenTrue none => exact distinct_functions lawful.2 last
  | .branch _ whenTrue (some otherwise) =>
      exact (distinct_functions lawful.2.1 last).append
        (distinct_functions lawful.2.2 _)
  | .fanout branches _ =>
      exact (distinct_functionsBranches lawful.2 (Nat.le_refl (last + 1))
          0).close fun _ => number_of_mem_unitFunctions
  | .dispatch routes _ _ =>
      obtain ⟨_, increasing, lawfulRoutes, _⟩ := lawful
      exact (distinct_functionsRoutes lawfulRoutes increasing
          (Nat.le_refl (last + 1))).close fun _ => number_of_mem_routeFunctions
termination_by structural node

theorem distinct_functionsSteps
    {steps : List Node} (lawful : LawfulList steps) (last : Nat) :
    Distinct [] last (last + numberedList steps)
      (functionsSteps last steps) := by
  match steps with
  | [] => exact .nil _ _
  | node :: rest =>
      exact (distinct_functions lawful.1 last).append
        (distinct_functionsSteps lawful.2 _)
termination_by structural steps

theorem distinct_functionsBranches {number last : Nat} {branches : List Node}
    (lawful : LawfulList branches) (below : number ≤ last) (position : Nat) :
    Distinct (unitFunctions number position branches.length) last
      (last + numberedList branches)
      (functionsBranches number last position branches) := by
  match branches with
  | [] => exact .nil _ _
  | node :: rest =>
      have new :
          .unit number position ∉
            unitFunctions number (position + 1) rest.length := by
        simp [unitFunctions]
      have numbered : ∀ other ∈ unitFunctions number position
          (rest.length + 1), other.number ≤ last := by
        intro other member
        rwa [number_of_mem_unitFunctions member]
      exact .cons new numbered (distinct_functions lawful.1 last)
        (distinct_functionsBranches lawful.2
          (Nat.le_trans below (Nat.le_add_right _ _)) _)
termination_by structural branches

theorem distinct_functionsRoutes
    {number last : Nat} {routes : List (String × Node)}
    (lawful : LawfulRoutes routes) (increasing : Sorted.Increasing routes)
    (below : number ≤ last) :
    Distinct (routeFunctions number (routes.map Prod.fst)) last
      (last + numberedRoutes routes)
      (functionsRoutes number last routes) := by
  match routes with
  | [] => exact .nil _ _
  | (name, node) :: rest =>
      obtain ⟨_, ofNode, ofRest⟩ := lawful
      obtain ⟨above, restIncreasing⟩ := List.pairwise_cons.mp increasing
      have new :
          .route number name ∉ routeFunctions number (rest.map Prod.fst) := by
        intro member
        obtain ⟨route, inRest, same⟩ : ∃ route ∈ rest, route.1 = name := by
          simpa [routeFunctions] using member
        exact String.lt_irrefl name (same ▸ above route inRest)
      have numbered : ∀ other ∈ routeFunctions number
          (name :: rest.map Prod.fst), other.number ≤ last := by
        intro other member
        rwa [number_of_mem_routeFunctions member]
      exact .cons new numbered (distinct_functions ofNode last)
        (distinct_functionsRoutes ofRest restIncreasing
          (Nat.le_trans below (Nat.le_add_right _ _)))
termination_by structural routes

end

end Node

namespace Program

open SelfCheck Code

/-- A line without the blanks in front of it. -/
def statement (line : List Char) : List Char :=
  line.dropWhile (· == ' ')

/-- The function that a line defines. -/
def definedName? (line : List Char) : Option String :=
  (behind? "def " (statement line)).map fun rest =>
    String.ofList (rest.takeWhile (· != '('))

/-- The functions of the tree that a line uses: those that it lists to be run
side by side, or the one that it calls. -/
def usedNames (line : List Char) : List String :=
  match behind? "_run_all(ctx, [" (statement line) <|>
      behind? "_run_first(ctx, [" (statement line) with
  | some listed =>
      (Text.pieces ',' (listed.takeWhile (· != ']'))).map fun name =>
        String.ofList (statement name)
  | none =>
      if (statement line).head? == some '_' then
        [String.ofList ((statement line).takeWhile (· != '('))]
      else []

theorem statement_margin (level : Nat) (line : List Char) :
    statement (margin level ++ line) = statement line := by
  have blanks : ∀ c ∈ margin level, (c == ' ') = true := by
    intro c member
    rw [List.eq_of_mem_replicate member]
    rfl
  exact List.dropWhile_append_of_pos blanks

theorem statement_of_head {line : List Char} (solid : line.head? ≠ some ' ') :
    statement line = line := by
  cases line with
  | nil => rfl
  | cons c line =>
      apply List.dropWhile_cons_of_neg
      simpa using solid

theorem definedName?_margin (level : Nat) (line : List Char) :
    definedName? (margin level ++ line) = definedName? line := by
  rw [definedName?, statement_margin, definedName?]

theorem usedNames_margin (level : Nat) (line : List Char) :
    usedNames (margin level ++ line) = usedNames line := by
  simp only [usedNames, statement_margin]

theorem definedName?_function {name : String} (isName : IsName name) :
    definedName? ("def " ++ name ++ "(ctx):").toList = some name := by
  have shape : ("def " ++ name ++ "(ctx):").toList =
      "def ".toList ++ (name.toList ++ '(' :: "ctx):".toList) := by simp
  have whole :
      statement ("def ".toList ++ (name.toList ++ '(' :: "ctx):".toList)) =
        "def ".toList ++ (name.toList ++ '(' :: "ctx):".toList) :=
    statement_of_head (by simp)
  rw [definedName?, shape, whole, behind?_append, Option.map_some,
    isName.takeWhile rfl, String.ofList_toList]

/-- Lines that define and use functions are told by their first letters. -/
theorem definedName?_eq_none {line : List Char} (solid : line.head? ≠ some ' ')
    (other : line.head? ≠ some 'd') : definedName? line = none := by
  rw [definedName?, statement_of_head solid, behind?_eq_none (by simp) other,
    Option.map_none]

theorem usedNames_eq_nil {line : List Char} (solid : line.head? ≠ some ' ')
    (other : line.head? ≠ some '_') : usedNames line = [] := by
  rw [usedNames, statement_of_head solid, behind?_eq_none (by simp) other,
    behind?_eq_none (by simp) other]
  simp [other]

theorem usedNames_routeLine (number : Nat) {target : String}
    (identifier : isIdentifier target = true) :
    usedNames (routeName number target ++ "(ctx)").toList =
      [routeName number target] := by
  have isName := IsName.route number identifier
  obtain ⟨rest, starts⟩ : ∃ rest,
      (routeName number target).toList = '_' :: 'r' :: 'o' :: rest := by
    simp [routeName]
  have head :
      ((routeName number target).toList ++ '(' :: "ctx)".toList).head? =
        some '_' := by
    simp [starts]
  have whole :
      statement ((routeName number target).toList ++ '(' :: "ctx)".toList) =
        (routeName number target).toList ++ '(' :: "ctx)".toList :=
    statement_of_head (by rw [head]; decide)
  have noAll : behind? "_run_all(ctx, ["
      ((routeName number target).toList ++ '(' :: "ctx)".toList) = none := by
    simp [behind?, starts, List.isPrefixOf]
  have noFirst : behind? "_run_first(ctx, ["
      ((routeName number target).toList ++ '(' :: "ctx)".toList) = none := by
    simp [behind?, starts, List.isPrefixOf]
  have shape : (routeName number target ++ "(ctx)").toList =
      (routeName number target).toList ++ '(' :: "ctx)".toList := by simp
  have cut := isName.takeWhile (c := '(') rfl "ctx)".toList
  simp only [usedNames, shape, whole, noAll, noFirst, HOrElse.hOrElse,
    OrElse.orElse, Option.orElse, head, beq_self_eq_true, if_true, cut,
    String.ofList_toList]

theorem toList_commaSeparated (first : String) (rest : List String) :
    (Text.commaSeparated (first :: rest)).toList =
      first.toList ++
        (rest.map fun part => ' ' :: part.toList).flatMap (',' :: ·) := by
  rw [Text.commaSeparated]
  induction rest generalizing first with
  | nil => simp [Text.joined]
  | cons part rest induction => simp [Text.joined, induction]

/-- The names of a list are found again. -/
theorem pieces_listed
    {names : List String} (areNames : ∀ name ∈ names, IsName name)
    (notEmpty : names ≠ []) (rest : List Char) :
    (Text.pieces ','
      (((Text.commaSeparated names).toList ++ ']' :: rest).takeWhile
      (· != ']'))).map (fun name => String.ofList (statement name)) =
        names := by
  obtain ⟨first, others, rfl⟩ := List.exists_cons_of_ne_nil notEmpty
  have noField {c : Char} (none : Reference.isFieldChar c = false)
    {name : String} (member : name ∈ first :: others) :
      ∀ d ∈ name.toList, d ≠ c := by
    rintro d inName rfl
    simp [areNames name member d inName] at none
  have noComma : ∀ piece ∈ first.toList :: others.map fun part =>
      ' ' :: part.toList, ∀ c ∈ piece, c ≠ ',' := by
    rw [List.forall_mem_cons, List.forall_mem_map]
    refine ⟨noField rfl List.mem_cons_self, ?_⟩
    intro part member
    rw [List.forall_mem_cons]
    exact ⟨by decide, noField rfl (List.mem_cons_of_mem first member)⟩
  have noBracket : ∀ c ∈ first.toList ++
      (others.map fun part => ' ' :: part.toList).flatMap (',' :: ·),
      (c != ']') = true := by
    simp only [List.forall_mem_append, List.forall_mem_flatMap,
      List.forall_mem_map, List.forall_mem_cons, bne_iff_ne]
    refine ⟨noField rfl List.mem_cons_self, ?_⟩
    intro part member
    exact ⟨by decide, by decide,
      noField rfl (List.mem_cons_of_mem first member)⟩
  have found {name : String} (member : name ∈ first :: others) :
      String.ofList (statement name.toList) = name := by
    have solid : name.toList.head? ≠ some ' ' := by
      intro head
      exact noField rfl member ' ' (List.mem_of_head? head) rfl
    rw [statement_of_head solid, String.ofList_toList]
  have later : (others.map fun part => ' ' :: part.toList).map
      (fun name => String.ofList (statement name)) = others := by
    have each : ∀ name ∈ others,
        ((fun name => String.ofList (statement name)) ∘
          fun part => ' ' :: part.toList) name = id name := by
      intro name member
      exact found (List.mem_cons_of_mem first member)
    rw [List.map_map, List.map_congr_left each, List.map_id]
  rw [toList_commaSeparated, List.takeWhile_append_of_pos noBracket,
    List.takeWhile_cons_of_neg (by simp), List.append_nil,
    Text.pieces_flatMap noComma,
    List.map_cons, found List.mem_cons_self, later]

theorem usedNames_run
    {names : List String} (areNames : ∀ name ∈ names, IsName name)
    (notEmpty : names ≠ []) {start : String}
    (runs : start = "_run_all(ctx, " ∨ start = "_run_first(ctx, ")
    (rest : String) :
    usedNames (start ++ listExpression names ++ rest).toList = names := by
  have shape : (start ++ listExpression names ++ rest).toList =
      (start ++ "[").toList ++
        ((Text.commaSeparated names).toList ++ ']' :: rest.toList) := by
    simp [listExpression]
  have whole (more : List Char) :
      statement ((start ++ "[").toList ++ more) =
        (start ++ "[").toList ++ more := by
    apply statement_of_head
    rcases runs with rfl | rfl
    all_goals simp
  have listed (more : List Char) :
      (behind? "_run_all(ctx, [" ((start ++ "[").toList ++ more) <|>
        behind? "_run_first(ctx, [" ((start ++ "[").toList ++ more)) =
        some more := by
    rcases runs with rfl | rfl
    · have joined : "_run_all(ctx, " ++ "[" = "_run_all(ctx, [" := by decide
      rw [joined, behind?_append]
      rfl
    · have joined : "_run_first(ctx, " ++ "[" = "_run_first(ctx, [" := by
        decide
      have noAll :
          behind? "_run_all(ctx, [" ("_run_first(ctx, [".toList ++ more) =
            none := by
        simp [behind?, List.isPrefixOf]
      rw [joined, noAll, behind?_append]
      rfl
  simp only [usedNames, shape, whole, listed, pieces_listed areNames notEmpty]

end Program

end Workflow
