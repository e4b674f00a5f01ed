import Workflow.Proofs.Document.Lawful
import Workflow.Proofs.Program.Lines

/-!
# Lawful trees have regular code

For a lawful tree whose conditions hold no triple quotes code can be written,
every line of it stands alone, and every block has a body.
-/

namespace Workflow

namespace Node

mutual

/-- The conditions that are asked in a tree. -/
def conditions : Node → List String
  | .call _ => []
  | .sequence steps => conditionsList steps
  | .branch condition whenTrue none => condition :: conditions whenTrue
  | .branch condition whenTrue (some otherwise) =>
      condition :: (conditions whenTrue ++ conditions otherwise)
  | .fanout branches _ => conditionsList branches
  | .dispatch routes rules _ =>
      rules.map Rule.condition ++ conditionsRoutes routes

def conditionsList : List Node → List String
  | [] => []
  | node :: rest => conditions node ++ conditionsList rest

def conditionsRoutes : List (String × Node) → List String
  | [] => []
  | (_, node) :: rest => conditions node ++ conditionsRoutes rest

end

end Node

namespace Program

open SelfCheck Code

theorem environmentRead_toList (name : String) :
    (environmentRead name).toList = "os.environ.get".toList ++
      '(' :: ((Text.quoted (environmentVariable name)).toList ++ [')']) := by
  change ("os.environ.get(" ++ Text.quoted (environmentVariable name) ++
      ")").toList = _
  simp

theorem sealed_environmentRead (name : String) :
    Sealed (environmentRead name).toList :=
  sealed_application "os.environ.get" (by decide)
    (expression_quoted (environmentVariable name))
    (environmentRead_toList name)

theorem exists_argumentExpression
    (name : String) {value : Value} {references : List Reference}
    (templates : value.references = .ok references) :
    ∃ text,
      argumentExpression name value = .ok text ∧ Expression text.toList := by
  obtain ⟨written, isWritten, complete⟩ := exists_valueExpression templates
  simp only [argumentExpression, templates, ok_bind]
  split
  · exact ⟨_, rfl, (sealed_environmentRead name).expression⟩
  · exact ⟨written, isWritten, complete⟩

theorem exists_argumentExpressions
    {params : Members}
    (lawful : ∀ param ∈ params, isIdentifier param.1 = true ∧
      ∃ references, param.2.references = .ok references) :
    ∃ arguments, argumentExpressions params = .ok arguments ∧
      ∀ argument ∈ arguments,
        isIdentifier argument.1 = true ∧ Expression argument.2.toList := by
  induction params with
  | nil => exact ⟨[], rfl, nofun⟩
  | cons param params induction =>
      obtain ⟨name, value⟩ := param
      obtain ⟨⟨identifier, references, templates⟩, ofRest⟩ :=
        List.forall_mem_cons.mp lawful
      obtain ⟨first, isFirst, complete⟩ :=
        exists_argumentExpression name templates
      obtain ⟨later, isLater, each⟩ := induction ofRest
      refine ⟨(name, first) :: later, ?_,
        List.forall_mem_cons.mpr ⟨⟨identifier, complete⟩, each⟩⟩
      simp only [argumentExpressions, isFirst, isLater, ok_bind]
      rfl

theorem expression_arguments {expressions : List (String × String)}
    (each : ∀ argument ∈ expressions,
      isIdentifier argument.1 = true ∧ Expression argument.2.toList) :
    ∀ text ∈ arguments expressions, Expression text.toList := by
  intro text member
  simp only [arguments, List.partition_eq_filter_filter] at member
  rcases List.mem_append.mp member with plain | reserved
  · obtain ⟨argument, isPlainArgument, rfl⟩ := List.mem_map.mp plain
    obtain ⟨identifier, complete⟩ :=
      each argument (List.mem_filter.mp isPlainArgument).1
    have named : IsPlain (argument.1 ++ "=") :=
      (isPlain_of_isIdentifier identifier).append (by decide)
    rw [String.toList_append]
    exact (sealed_of_isPlain named).append_expression complete
  · split at reserved
    · cases reserved
    · obtain rfl := List.mem_singleton.mp reserved
      have stars : Sealed "**".toList := sealed_of_isPlain (by decide)
      rw [String.toList_append]
      refine (stars.append (sealed_dictionaryExpression ?_)).expression
      intro entry isEntry
      obtain ⟨argument, isReserved, rfl⟩ := List.mem_map.mp isEntry
      exact expression_entry
        (each argument (List.mem_filter.mp isReserved).1).2

theorem exists_callLine {call : ToolCall} (lawful : call.Lawful) :
    ∃ code,
      callLine call = .ok code ∧ code.Regular ∧ startsSolid [code] = true := by
  obtain ⟨expressions, written, each⟩ :=
    exists_argumentExpressions lawful.params
  have complete := expression_joined_comma (expression_arguments each)
  have named : Lead ("tool_" ++ call.tool) :=
    Lead.append (by decide) (isPlain_of_isIdentifier lawful.tool)
  have isCall : callExpression call = .ok
      ("tool_" ++ call.tool ++ "(" ++
        Text.commaSeparated (arguments expressions) ++ ")") := by
    simp only [callExpression, written, ok_bind]
    rfl
  have applied : Sealed ("tool_" ++ call.tool ++ "(" ++
      Text.commaSeparated (arguments expressions) ++ ")").toList :=
    sealed_application ("tool_" ++ call.tool) named.plain complete (by simp)
  simp only [callLine, isCall]
  cases call.output with
  | none =>
      exact ⟨_, rfl, regular_application _ named complete (by simp), rfl⟩
  | some target =>
      have comma : Sealed ", ".toList := sealed_of_isPlain (by decide)
      have inner := ((expression_quoted target).append_sealed comma (by simp)
        (by simp [Unquoted])).append_expression applied.expression
      exact ⟨_, rfl, regular_application "ctx.set" (by decide) inner
        (by simp), rfl⟩

theorem isPlain_unitName (number position : Nat) :
    IsPlain (unitName number position) :=
  ((IsPlain.append (by decide) (isPlain_toString number)).append
    (by decide)).append (isPlain_toString position)

theorem lead_routeName
    (number : Nat) {name : String} (identifier : isIdentifier name = true) :
    Lead (routeName number name) :=
  ((Lead.append (by decide) (isPlain_toString number)).append
    (by decide)).append (isPlain_of_isIdentifier identifier)

/-- The header of a function of the context. -/
theorem standsAlone_function {name : String} (plain : IsPlain name) :
    StandsAlone ("def " ++ name ++ "(ctx):").toList := by
  have context : Expression "ctx".toList :=
    (sealed_of_isPlain (by decide)).expression
  have applied : Sealed (name ++ "(ctx)").toList :=
    sealed_application name plain context (by simp)
  exact standsAlone_header "def " (by decide) applied.expression (by simp)

/-- The line that runs a number of branches, which bind some names. -/
def joinCode (number count : Nat) (bound : NameSet) (join : JoinPolicy) :
    Code :=
  let units := listExpression ((List.range count).map (unitName number))
  match join with
  | .waitForAll => .line ("_run_all(ctx, " ++ units ++ ")")
  | .firstToFinish =>
      if bound.isEmpty then .line ("_run_first(ctx, " ++ units ++ ")")
      else .line ("_run_first(ctx, " ++ units ++ ", " ++
        listExpression (bound.names.map Text.quoted) ++ ")")

theorem joinLine_eq_joinCode
    (number : Nat) (branches : List Node) (join : JoinPolicy) :
    joinLine number branches join =
      joinCode number branches.length (boundNames branches) join :=
  rfl

theorem regular_joinCode
    (number count : Nat) (bound : NameSet) (join : JoinPolicy) :
    (joinCode number count bound join).Regular := by
  have units :
      Sealed (listExpression
          ((List.range count).map (unitName number))).toList := by
    apply sealed_listExpression
    intro unit member
    obtain ⟨position, _, rfl⟩ := List.mem_map.mp member
    exact (sealed_of_isPlain (isPlain_unitName number position)).expression
  have names :
      Sealed (listExpression (bound.names.map Text.quoted)).toList := by
    apply sealed_listExpression
    intro name member
    obtain ⟨target, _, rfl⟩ := List.mem_map.mp member
    exact expression_quoted target
  have context : Sealed "ctx, ".toList := sealed_of_isPlain (by decide)
  have comma : Sealed ", ".toList := sealed_of_isPlain (by decide)
  have short := (context.append units).expression
  have long := ((context.append units).append (comma.append names)).expression
  cases join with
  | waitForAll =>
      exact regular_application "_run_all" (by decide) short (by simp)
  | firstToFinish =>
      simp only [joinCode]
      split
      · exact regular_application "_run_first" (by decide) short (by simp)
      · exact regular_application "_run_first" (by decide) long (by simp)

/-- The line that follows a route. -/
theorem regular_routeLine
    (number : Nat) {target : String}
    (identifier : isIdentifier target = true) :
    (routeLine number target).Regular := by
  have context : Expression "ctx".toList :=
    (sealed_of_isPlain (by decide)).expression
  exact regular_application (routeName number target)
    (lead_routeName number identifier) context (by simp)

/-- The header of a block that asks a condition. -/
theorem standsAlone_condition
    (front : String) {condition : String} (lead : Lead front)
    (accepted : Condition.check condition = .ok ())
    (untripled : Untripled condition.toList) :
    StandsAlone (front ++ conditionExpression condition ++ ":").toList :=
  standsAlone_header front lead
    (expression_conditionExpression accepted untripled) (by simp)

theorem regular_ruleBlocks
    (number : Nat) (keyword : String) (lead : Lead (keyword ++ " "))
    {rules : List Rule}
    (lawful : ∀ rule ∈ rules, Condition.check rule.condition = .ok () ∧
      isIdentifier rule.target = true ∧ Untripled rule.condition.toList) :
    RegularAll (ruleBlocks number keyword rules) := by
  induction rules generalizing keyword with
  | nil => trivial
  | cons rule rules induction =>
      obtain ⟨⟨accepted, identifier, untripled⟩, ofRest⟩ :=
        List.forall_mem_cons.mp lawful
      refine ⟨⟨standsAlone_condition _ lead accepted untripled, rfl, ?_⟩, ?_⟩
      · exact ⟨regular_routeLine number identifier, trivial⟩
      · exact induction "elif" (by decide) ofRest

theorem standsAlone_else : StandsAlone "else:".toList :=
  standsAlone_of_isAlone rfl (by decide +kernel)

theorem regular_pass : Code.Regular (.line "pass") :=
  regular_of_isAlone rfl (by decide +kernel)

theorem exists_routeChoice
    (number : Nat) {known : List String} {rules : List Rule}
    {fallback : Option String} (routing : LawfulRouting known rules fallback)
    (identifiers : ∀ name ∈ known, isIdentifier name = true)
    (untripled : ∀ rule ∈ rules, Untripled rule.condition.toList) :
    ∃ code,
      routeChoice number rules fallback = .ok code ∧ RegularAll code := by
  have ofRules : ∀ rule ∈ rules, Condition.check rule.condition = .ok () ∧
      isIdentifier rule.target = true ∧ Untripled rule.condition.toList := by
    intro rule member
    obtain ⟨accepted, isKnown⟩ := routing.ofRule rule member
    exact ⟨accepted, identifiers _ isKnown, untripled rule member⟩
  have ofFallback : ∀ target ∈ fallback, isIdentifier target = true :=
    fun target isFallback =>
      identifiers target (routing.ofFallback target isFallback)
  cases rules with
  | nil =>
      cases fallback with
      | none => exact absurd routing.leads (by simp)
      | some target =>
          exact ⟨_, rfl, regular_routeLine number (ofFallback target rfl),
            trivial⟩
  | cons rule rules =>
      refine ⟨_, rfl, ?_⟩
      have blocks := regular_ruleBlocks number "if" (by decide) ofRules
      rw [regularAll_iff] at blocks ⊢
      intro code member
      rcases List.mem_append.mp member with isRule | isLast
      · exact blocks code isRule
      · obtain rfl := List.mem_singleton.mp isLast
        refine ⟨standsAlone_else, ?_⟩
        cases fallback with
        | none => exact ⟨rfl, regular_pass, trivial⟩
        | some target =>
            exact ⟨rfl, regular_routeLine number (ofFallback target rfl),
              trivial⟩

theorem regularAll_append {first second : List Code} (left : RegularAll first)
    (right : RegularAll second) : RegularAll (first ++ second) := by
  rw [regularAll_iff] at left right ⊢
  exact List.forall_mem_append.mpr ⟨left, right⟩

theorem startsSolid_append
    {first : List Code} (second : List Code)
    (starts : startsSolid first = true) :
    startsSolid (first ++ second) = true := by
  match first with
  | .line _ :: _ => rfl
  | .block _ _ :: _ => rfl

mutual

/-- A lawful tree has code, which is regular and not empty. -/
theorem exists_treeCode
    {node : Node} (lawful : node.Lawful)
    (untripled : ∀ condition ∈ node.conditions, Untripled condition.toList)
    (last : Nat) :
    ∃ numbered, treeCode last node = .ok numbered ∧ RegularAll numbered.code ∧
      startsSolid numbered.code = true := by
  -- that no code is empty is carried along, since every block needs a body
  match node with
  | .call invocation =>
      obtain ⟨code, written, regular, solid⟩ := exists_callLine lawful
      refine ⟨⟨[code], last⟩, ?_, ⟨regular, trivial⟩, solid⟩
      simp only [treeCode, written, ok_bind]
      rfl
  | .sequence steps =>
      obtain ⟨notEmpty, steps⟩ := lawful
      obtain ⟨numbered, written, regular, solid⟩ :=
        exists_stepCode steps untripled last
      exact ⟨numbered, written, regular, solid notEmpty⟩
  | .branch condition whenTrue none =>
      obtain ⟨accepted, whenTrue⟩ := lawful
      obtain ⟨ofCondition, ofTree⟩ := List.forall_mem_cons.mp untripled
      obtain ⟨first, written, regular, solid⟩ :=
        exists_treeCode whenTrue ofTree last
      have header :=
        standsAlone_condition "if " (by decide) accepted ofCondition
      refine ⟨⟨[.block ("if " ++ conditionExpression condition ++ ":")
          first.code], first.last⟩,
        ?_, ⟨⟨header, solid, regular⟩, trivial⟩, rfl⟩
      simp only [treeCode, written, ok_bind]
      rfl
  | .branch condition whenTrue (some otherwise) =>
      obtain ⟨accepted, whenTrue, otherwise⟩ := lawful
      obtain ⟨ofCondition, ofTrees⟩ := List.forall_mem_cons.mp untripled
      obtain ⟨ofTrue, ofOther⟩ := List.forall_mem_append.mp ofTrees
      obtain ⟨first, isFirst, regular, solid⟩ :=
        exists_treeCode whenTrue ofTrue last
      obtain ⟨second, isSecond, regularOther, solidOther⟩ :=
        exists_treeCode otherwise ofOther first.last
      have header :=
        standsAlone_condition "if " (by decide) accepted ofCondition
      refine ⟨⟨[.block ("if " ++ conditionExpression condition ++ ":")
          first.code, .block "else:" second.code], second.last⟩,
        ?_, ⟨⟨header, solid, regular⟩,
          ⟨standsAlone_else, solidOther, regularOther⟩, trivial⟩, rfl⟩
      simp only [treeCode, isFirst, isSecond, ok_bind]
      rfl
  | .fanout branches join =>
      obtain ⟨several, branchesLawful⟩ := lawful
      obtain ⟨units, written, regular, solid⟩ :=
        exists_unitCode (last + 1) branchesLawful untripled (last + 1) 0
      have regularJoin :=
        regular_joinCode (last + 1) branches.length (boundNames branches) join
      rw [← joinLine_eq_joinCode] at regularJoin
      have notEmpty : branches ≠ [] := by
        rintro rfl
        simp at several
      refine ⟨⟨units.code ++ [joinLine (last + 1) branches join], units.last⟩,
        ?_, regularAll_append regular ⟨regularJoin, trivial⟩,
        startsSolid_append _ (solid notEmpty)⟩
      simp only [treeCode, written, ok_bind]
      rfl
  | .dispatch routes rules fallback =>
      obtain ⟨notEmpty, _, routesLawful, routing⟩ := lawful
      obtain ⟨ofRules, ofRoutes⟩ := List.forall_mem_append.mp untripled
      obtain ⟨functions, written, regular, solid⟩ :=
        exists_routeCode (last + 1) routesLawful ofRoutes (last + 1)
      have identifiers :
          ∀ name ∈ routes.map Prod.fst, isIdentifier name = true := by
        intro name member
        obtain ⟨route, isRoute, rfl⟩ := List.mem_map.mp member
        exact (Node.lawfulRoutes_iff.mp routesLawful route isRoute).1
      obtain ⟨choice, isChoice, regularChoice⟩ :=
        exists_routeChoice (last + 1) routing identifiers fun rule member =>
          ofRules _ (List.mem_map_of_mem member)
      refine ⟨⟨functions.code ++ choice, functions.last⟩, ?_,
        regularAll_append regular regularChoice,
        startsSolid_append _ (solid notEmpty)⟩
      simp only [treeCode, written, isChoice, ok_bind]
      rfl

theorem exists_stepCode
    {nodes : List Node} (lawful : Node.LawfulList nodes)
    (untripled : ∀ condition ∈ Node.conditionsList nodes,
      Untripled condition.toList) (last : Nat) :
    ∃ numbered, stepCode last nodes = .ok numbered ∧ RegularAll numbered.code ∧
      (nodes ≠ [] → startsSolid numbered.code = true) := by
  match nodes with
  | [] => exact ⟨⟨[], last⟩, rfl, trivial, nofun⟩
  | node :: rest =>
      obtain ⟨ofNode, ofRest⟩ := List.forall_mem_append.mp untripled
      obtain ⟨first, isFirst, regular, solid⟩ :=
        exists_treeCode lawful.1 ofNode last
      obtain ⟨later, isLater, regularLater, _⟩ :=
        exists_stepCode lawful.2 ofRest first.last
      refine ⟨⟨first.code ++ later.code, later.last⟩, ?_,
        regularAll_append regular regularLater,
        fun _ => startsSolid_append later.code solid⟩
      simp only [stepCode, isFirst, isLater, ok_bind]
      rfl

theorem exists_unitCode
    (number : Nat) {nodes : List Node} (lawful : Node.LawfulList nodes)
    (untripled : ∀ condition ∈ Node.conditionsList nodes,
      Untripled condition.toList) (last position : Nat) :
    ∃ numbered, unitCode number last position nodes = .ok numbered ∧
      RegularAll numbered.code ∧
      (nodes ≠ [] → startsSolid numbered.code = true) := by
  match nodes with
  | [] => exact ⟨⟨[], last⟩, rfl, trivial, nofun⟩
  | node :: rest =>
      obtain ⟨ofNode, ofRest⟩ := List.forall_mem_append.mp untripled
      obtain ⟨first, isFirst, regular, solid⟩ :=
        exists_treeCode lawful.1 ofNode last
      obtain ⟨later, isLater, regularLater, _⟩ :=
        exists_unitCode number lawful.2 ofRest first.last (position + 1)
      have header := standsAlone_function (isPlain_unitName number position)
      refine ⟨⟨.block ("def " ++ unitName number position ++ "(ctx):")
          first.code :: later.code, later.last⟩,
        ?_, ⟨⟨header, solid, regular⟩, regularLater⟩, fun _ => rfl⟩
      simp only [unitCode, isFirst, isLater, ok_bind]
      rfl

theorem exists_routeCode
    (number : Nat) {routes : List (String × Node)}
    (lawful : Node.LawfulRoutes routes)
    (untripled : ∀ condition ∈ Node.conditionsRoutes routes,
      Untripled condition.toList) (last : Nat) :
    ∃ numbered,
      routeCode number last routes = .ok numbered ∧ RegularAll numbered.code ∧
      (routes ≠ [] → startsSolid numbered.code = true) := by
  match routes with
  | [] => exact ⟨⟨[], last⟩, rfl, trivial, nofun⟩
  | (name, node) :: rest =>
      obtain ⟨identifier, ofNodeLawful, ofRestLawful⟩ := lawful
      obtain ⟨ofNode, ofRest⟩ := List.forall_mem_append.mp untripled
      obtain ⟨first, isFirst, regular, solid⟩ :=
        exists_treeCode ofNodeLawful ofNode last
      obtain ⟨later, isLater, regularLater, _⟩ :=
        exists_routeCode number ofRestLawful ofRest first.last
      have header :=
        standsAlone_function (lead_routeName number identifier).plain
      refine ⟨⟨.block ("def " ++ routeName number name ++ "(ctx):")
          first.code :: later.code, later.last⟩,
        ?_, ⟨⟨header, solid, regular⟩, regularLater⟩, fun _ => rfl⟩
      simp only [routeCode, isFirst, isLater, ok_bind]
      rfl

end

theorem standsAlone_treeHeader : StandsAlone "def _workflow(ctx):".toList := by
  have named : IsPlain "_workflow" := by decide
  simpa using standsAlone_function named

/-- The function of a lawful tree is regular. -/
theorem exists_treeFunction {node : Node} (lawful : node.Lawful)
    (untripled : ∀ condition ∈ node.conditions, Untripled condition.toList) :
    ∃ body, treeFunction node = .ok (.block "def _workflow(ctx):" body) ∧
      Code.Regular (.block "def _workflow(ctx):" body) := by
  obtain ⟨numbered, written, regular, solid⟩ :=
    exists_treeCode lawful untripled 0
  refine ⟨numbered.code, ?_, standsAlone_treeHeader, solid, regular⟩
  simp only [treeFunction, written, ok_bind]
  rfl

end Program

end Workflow
