import Workflow.Proofs.Document.Schema

/-!
# Trees are read by the schema

Reading a value as a tree comes to a tree without errors exactly when the value
is a document of that tree.
-/

namespace Workflow

theorem JoinPolicy.ofText?_eq_some {text : String} {join : JoinPolicy} :
    JoinPolicy.ofText? text = some join ↔ text = join.text := by
  constructor
  · intro found
    have same := List.find?_some found
    exact (beq_iff_eq.mp same).symm
  · rintro rfl
    cases join <;> rfl

namespace Document

variable {members : Members} {path : Path}

@[simp] theorem gives_recordParam
    {name : String} {value : Value} {result : Unit} :
    (recordParam name value path).Gives result ↔
      isIdentifier name = true ∧
      ∃ references, value.references = .ok references := by
  unfold recordParam
  cases value.references with
  | error malformed => simp [Finding.severity]
  | ok references =>
      by_cases literal :
        (references.isEmpty && !value.isNull && isSecretName name) = true
      · simp [literal, Finding.severity]
      · simp [literal]

@[simp] theorem gives_recordParams
    {params : List (String × Value)} {result : Unit} :
    (recordParams path params).Gives result ↔ ∀ param ∈ params,
      isIdentifier param.1 = true ∧
      ∃ references, param.2.references = .ok references := by
  induction params with
  | nil => simp [recordParams]
  | cons param rest induction =>
      simp only [recordParams, Checked.gives_bind, gives_recordParam,
        induction, List.forall_mem_cons, exists_const]

@[simp] theorem gives_readParams {params? : Option Members} :
    (readParams members path).Gives params? ↔
      ∃ params,
        ParamsAt members params ∧ params? = some params ∧ ∀ param ∈ params,
        isIdentifier param.1 = true ∧
        ∃ references, param.2.references = .ok references := by
  unfold readParams ParamsAt
  cases members.get? "params" with
  | none => simp
  | some value =>
      cases value with
      | null => simp
      | object params => simp [and_comm]
      | _ => simp [Finding.severity]

theorem gives_readCall {node? : Option Node} :
    (readCall members path).Gives node? ↔
      ∃ tool params output, members.get? "tool" = some (.string tool) ∧
        ParamsAt members params ∧ OptionalText members "output" output ∧
        ToolCall.Lawful ⟨tool, params, output⟩ ∧
        node? = some (.call ⟨tool, params, output⟩) := by
  simp only [readCall, Option.pure_def, Option.bind_eq_bind,
    Checked.gives_bind, gives_recordUnknownKeys, gives_requiredText,
    ↓existsAndEq, and_true, Option.bind_some, gives_recordName,
    gives_readParams, gives_optionalText, true_and, exists_const]
  constructor
  · rintro ⟨tool, toolAt, name, params, ⟨paramsAt, paramsLawful⟩, output,
      outputAt, rest⟩
    refine ⟨tool, params, output, toolAt, paramsAt, outputAt, ?_⟩
    cases output with
    | none =>
        have isCall : node? = some (.call ⟨tool, params, none⟩) := by
          simpa using rest
        exact ⟨⟨name, paramsLawful, by simp⟩, isCall⟩
    | some target =>
        have isCall : isIdentifier target = true ∧
            node? = some (.call ⟨tool, params, some target⟩) := by
          simpa using rest
        refine ⟨⟨name, paramsLawful, ?_⟩, isCall.2⟩
        rintro _ ⟨⟩
        exact isCall.1
  · rintro ⟨tool, params, output, toolAt, paramsAt, outputAt, lawful, rfl⟩
    refine ⟨tool, toolAt, lawful.tool, params, ⟨paramsAt, lawful.params⟩,
      output, outputAt, ?_⟩
    cases output with
    | none => simp
    | some target => simpa using lawful.output target rfl

@[simp] theorem gives_readJoin {join? : Option JoinPolicy} :
    (readJoin members path).Gives join? ↔
      ∃ join : JoinPolicy, members.get? "join" = some (.string join.text) ∧
        join? = some join := by
  simp only [readJoin, Checked.gives_bind, gives_requiredText, ↓existsAndEq,
    and_true]
  constructor
  · rintro ⟨text, joinAt, rest⟩
    cases known : JoinPolicy.ofText? text with
    | none => simp [known, Finding.severity] at rest
    | some join =>
        obtain rfl := JoinPolicy.ofText?_eq_some.mp known
        exact ⟨join, joinAt, by simpa [known] using rest⟩
  · rintro ⟨join, joinAt, rfl⟩
    refine ⟨join.text, joinAt, ?_⟩
    simp [JoinPolicy.ofText?_eq_some.mpr rfl]

@[simp] theorem gives_readRule
    {known : NameSet} {value : Value} {rule? : Option Rule} :
    (readRule (some known) value path).Gives rule? ↔
      ∃ rule, RuleDocument value rule ∧ rule? = some rule ∧
        Condition.check rule.condition = .ok () ∧ rule.target ∈ known := by
  simp only [readRule, Checked.gives_bind, gives_members?,
    gives_recordUnknownKeys, gives_requiredText, gives_recordCondition,
    ↓existsAndEq, and_true, true_and, exists_const]
  constructor
  · rintro ⟨members, rfl, condition, conditionAt, accepted, target, targetAt,
      rest⟩
    by_cases member : target ∈ known
    · exact ⟨⟨condition, target⟩, ⟨members, rfl, conditionAt, targetAt⟩,
        by simpa [member] using rest, accepted, member⟩
    · simp [member, Finding.severity] at rest
  · rintro ⟨rule, ⟨members, rfl, conditionAt, targetAt⟩, rfl, accepted, member⟩
    refine ⟨members, rfl, rule.condition, conditionAt, accepted, rule.target,
      targetAt, ?_⟩
    simp [member]

@[simp] theorem gives_readRulesFrom
    {known : NameSet} {items : List Value} {position : Nat}
    {rules? : Option (List Rule)} :
    (readRulesFrom (some known) path position items).Gives rules? ↔
      ∃ rules, items.Forall₂ RuleDocument rules ∧ rules? = some rules ∧
        ∀ rule ∈ rules,
          Condition.check rule.condition = .ok () ∧ rule.target ∈ known := by
  induction items generalizing position rules? with
  | nil => simp [readRulesFrom]
  | cons item items induction =>
      simp only [readRulesFrom, Checked.gives_bind, gives_readRule, induction,
        ↓existsAndEq, Checked.gives_pure, Option.pure_def, Option.bind_eq_bind,
        Option.bind_some, true_and]
      constructor
      · rintro ⟨rule, ⟨document, lawful⟩, rules, ⟨documents, allLawful⟩, rfl⟩
        exact ⟨rule :: rules, .cons document documents, rfl,
          List.forall_mem_cons.mpr ⟨lawful, allLawful⟩⟩
      · rintro ⟨_, documents, rfl, allLawful⟩
        cases documents with
        | cons document documents =>
            obtain ⟨lawful, othersLawful⟩ := List.forall_mem_cons.mp allLawful
            exact ⟨_, ⟨document, lawful⟩, _, ⟨documents, othersLawful⟩, rfl⟩

@[simp] theorem gives_readRules
    {known : NameSet} {rules? : Option (List Rule)} :
    (readRules (some known) members path).Gives rules? ↔
      ∃ rules, RulesAt members rules ∧ rules? = some rules ∧
        ∀ rule ∈ rules,
          Condition.check rule.condition = .ok () ∧ rule.target ∈ known := by
  unfold readRules RulesAt
  cases members.get? "rules" with
  | none => simp
  | some value =>
      cases value with
      | null => simp
      | array items => simp
      | _ => simp [Finding.severity]

@[simp] theorem gives_readFallback
    {known : NameSet} {fallback? : Option (Option String)} :
    (readFallback (some known) members path).Gives fallback? ↔
      ∃ fallback,
        OptionalText members "default" fallback ∧ fallback? = some fallback ∧
        ∀ target ∈ fallback, target ∈ known := by
  simp only [readFallback, Checked.gives_bind, gives_optionalText,
    ↓existsAndEq, and_true]
  constructor
  · rintro ⟨fallback, fallbackAt, rest⟩
    refine ⟨fallback, fallbackAt, ?_⟩
    cases fallback with
    | none => simpa using rest
    | some target =>
        by_cases member : target ∈ known
        · simpa [member] using rest
        · simp [member, Finding.severity] at rest
  · rintro ⟨fallback, fallbackAt, rfl, lawful⟩
    refine ⟨fallback, fallbackAt, ?_⟩
    cases fallback with
    | none => simp
    | some target => simp [lawful target rfl]

@[simp] theorem gives_recordUnrouted
    {routed names : List String} {result : Unit} :
    (recordUnrouted routed path names).Gives result := by
  induction names with
  | nil => exact Checked.gives_pure.mpr rfl
  | cons name rest induction =>
      simp only [recordUnrouted]
      split
      · simp [Finding.severity, induction]
      · simp [induction]

@[simp] theorem gives_recordRouting {known : NameSet} {rules : List Rule}
    {fallback : Option String} {result : Unit} :
    (recordRouting known path (some rules) (some fallback)).Gives result ↔
      (rules ≠ [] ∨ fallback ≠ none) := by
  cases rules with
  | nil =>
      cases fallback with
      | none => simp [recordRouting, Finding.severity]
      | some target => simp [recordRouting]
  | cons rule rules => simp [recordRouting]

theorem mem_subWorkflowNames {entries : Members} {name : String}
    (routesAt : members.get? "sub_workflows" = some (.object entries)) :
    name ∈ subWorkflowNames members ↔ name ∈ entries.map Prod.fst := by
  simp [subWorkflowNames, routesAt, Members.keys]

theorem gives_readDispatch {entries : Members} {routes : List (String × Node)}
    {node? : Option Node}
    (routesAt : members.get? "sub_workflows" = some (.object entries))
    (names : routes.map Prod.fst = entries.map Prod.fst) :
    (readDispatch (some routes) members path).Gives node? ↔
      ∃ rules fallback,
        RulesAt members rules ∧ OptionalText members "default" fallback ∧
        LawfulRouting (routes.map Prod.fst) rules fallback ∧
        node? = some (.dispatch (Sorted.ofList routes) rules fallback) := by
  simp only [readDispatch, Option.map_some, Checked.gives_bind,
    gives_readRules, gives_readFallback, ↓existsAndEq, true_and,
    Option.pure_def, Option.bind_eq_bind, Option.bind_some, Checked.gives_pure,
    gives_recordRouting, exists_const, mem_subWorkflowNames routesAt, ← names]
  constructor
  · rintro ⟨rules, ⟨rulesAt, ofRule⟩, fallback, ⟨fallbackAt, ofFallback⟩,
      leads, rfl⟩
    exact ⟨rules, fallback, rulesAt, fallbackAt, ⟨ofRule, ofFallback, leads⟩,
      rfl⟩
  · rintro ⟨rules, fallback, rulesAt, fallbackAt, routing, rfl⟩
    exact ⟨rules, ⟨rulesAt, routing.ofRule⟩, fallback,
      ⟨fallbackAt, routing.ofFallback⟩, routing.leads, rfl⟩

/-- Reading a value as a tree goes by the schema, wherever the value stands. -/
def ReadsBySchema (value : Value) : Prop :=
  ∀ (path : Path) (node? : Option Node), (readNode value path).Gives node? ↔
    ∃ node, NodeDocument value node ∧ node? = some node

theorem gives_readNodesFrom
    {items : List Value} {key : String} {position : Nat}
    {nodes? : Option (List Node)} (each : ∀ item ∈ items, ReadsBySchema item) :
    (readNodesFrom path key position items).Gives nodes? ↔
      ∃ nodes, NodeDocuments items nodes ∧ nodes? = some nodes := by
  induction items generalizing position nodes? with
  | nil =>
      rw [readNodesFrom, Checked.gives_pure]
      constructor
      · rintro rfl
        exact ⟨[], .nil, rfl⟩
      · rintro ⟨_, ⟨⟩, rfl⟩
        rfl
  | cons item items induction =>
      obtain ⟨here, others⟩ := List.forall_mem_cons.mp each
      rw [readNodesFrom]
      simp only [Checked.gives_bind, here _ _, induction others, ↓existsAndEq,
        and_true, Checked.gives_pure, Option.pure_def, Option.bind_eq_bind,
        Option.bind_some]
      constructor
      · rintro ⟨node, first, nodes, rest, rfl⟩
        exact ⟨node :: nodes, .cons first rest, rfl⟩
      · rintro ⟨_, documents, rfl⟩
        cases documents with
        | cons first rest => exact ⟨_, first, _, rest, rfl⟩

theorem gives_readRoutesFrom
    {entries : List (String × Value)} {routes? : Option (List (String × Node))}
    (each : ∀ entry ∈ entries, ReadsBySchema entry.2) :
    (readRoutesFrom path entries).Gives routes? ↔
      ∃ routes, RouteDocuments entries routes ∧ routes? = some routes := by
  induction entries generalizing routes? with
  | nil =>
      rw [readRoutesFrom, Checked.gives_pure]
      constructor
      · rintro rfl
        exact ⟨[], .nil, rfl⟩
      · rintro ⟨_, ⟨⟩, rfl⟩
        rfl
  | cons entry entries induction =>
      obtain ⟨here, others⟩ := List.forall_mem_cons.mp each
      rw [readRoutesFrom]
      simp only [Checked.gives_bind, gives_recordName, here _ _,
        induction others, ↓existsAndEq, and_true, Checked.gives_pure,
        Option.pure_def, Option.bind_eq_bind, Option.bind_some, exists_const]
      constructor
      · rintro ⟨identifier, node, first, routes, rest, rfl⟩
        exact ⟨(entry.1, node) :: routes, .cons identifier first rest, rfl⟩
      · rintro ⟨_, documents, rfl⟩
        cases documents with
        | cons identifier first rest =>
            exact ⟨identifier, _, first, _, rest, rfl⟩

theorem sizeOf_lt_of_array {key : String} {items : List Value}
    (found : members.get? key = some (.array items)) :
    ∀ item ∈ items, sizeOf item < sizeOf members := by
  intro item member
  have smaller := Members.sizeOf_get? found
  have inside := List.sizeOf_lt_of_mem member
  simp at smaller
  omega

theorem sizeOf_lt_of_object {key : String} {entries : List (String × Value)}
    (found : members.get? key = some (.object entries)) :
    ∀ entry ∈ entries, sizeOf entry.2 < sizeOf members := by
  rintro ⟨name, value⟩ member
  have smaller := Members.sizeOf_get? found
  have inside := List.sizeOf_lt_of_mem member
  simp at smaller inside ⊢
  omega

/-- A child that may be absent or null. -/
def OptionalChild (members : Members) (key : String) : Option Node → Prop
  | some node =>
      ∃ value, members.get? key = some value ∧ NodeDocument value node
  | none => members.get? key = none ∨ members.get? key = some .null

section Members

variable (below : ∀ value : Value,
    sizeOf value < sizeOf members → ReadsBySchema value)

include below

theorem gives_readNodes {key : String} {nodes? : Option (List Node)} :
    (readNodes members key path).Gives nodes? ↔
      ∃ items nodes,
        members.get? key = some (.array items) ∧ NodeDocuments items nodes ∧
        nodes? = some nodes := by
  rw [readNodes]
  split
  · rename_i items found
    have each :=
      fun item member => below item (sizeOf_lt_of_array found item member)
    simp [found, gives_readNodesFrom each]
  · rename_i other noArray found
    have noItems : ∀ items, other ≠ .array items := by
      rintro items rfl
      exact noArray items rfl
    simp [found, Finding.severity, noItems]
  · rename_i found
    simp [found, Finding.severity]

theorem gives_readSequence {node? : Option Node} :
    (readSequence members path).Gives node? ↔
      ∃ items steps, members.get? "steps" = some (.array items) ∧
        NodeDocuments items steps ∧
        steps ≠ [] ∧ node? = some (.sequence steps) := by
  rw [readSequence]
  simp only [Checked.gives_bind, gives_recordUnknownKeys,
    gives_readNodes below, ↓existsAndEq, and_true, true_and, exists_const]
  constructor
  · rintro ⟨items, steps, ⟨stepsAt, documents⟩, rest⟩
    refine ⟨items, steps, stepsAt, documents, ?_⟩
    cases steps with
    | nil => simp [Finding.severity] at rest
    | cons step steps => simpa using rest
  · rintro ⟨items, steps, stepsAt, documents, notEmpty, rfl⟩
    refine ⟨items, steps, ⟨stepsAt, documents⟩, ?_⟩
    simp [notEmpty]

theorem gives_readChild {key : String} {node? : Option Node} :
    (readChild members key path).Gives node? ↔
      ∃ value node, members.get? key = some value ∧ NodeDocument value node ∧
        node? = some node := by
  rw [readChild]
  split
  · rename_i value found
    have here := below value (Members.sizeOf_get? found)
    simp [found, here _ _]
  · rename_i found
    simp [found, Finding.severity]

theorem gives_readOptionalChild
    {key : String} {child? : Option (Option Node)} :
    (readOptionalChild members key path).Gives child? ↔
      ∃ child, OptionalChild members key child ∧ child? = some child := by
  have noNull : ∀ node, ¬NodeDocument .null node := nofun
  rw [readOptionalChild]
  split
  · rename_i found
    simp [OptionalChild, Option.exists, found]
  · rename_i found
    simp [OptionalChild, Option.exists, found, noNull]
  · rename_i value notNull found
    have here := below value (Members.sizeOf_get? found)
    have different : value ≠ .null := notNull
    simp [OptionalChild, Option.exists, found, here _ _, different]

theorem gives_readBranch {node? : Option Node} :
    (readBranch members path).Gives node? ↔
      ∃ condition value whenTrue otherwise,
        members.get? "condition" = some (.string condition) ∧
        Condition.check condition = .ok () ∧
        members.get? "if_true" = some value ∧
        NodeDocument value whenTrue ∧
        OptionalChild members "if_false" otherwise ∧
        node? = some (.branch condition whenTrue otherwise) := by
  rw [readBranch]
  simp only [Checked.gives_bind, gives_recordUnknownKeys, gives_requiredText,
    gives_recordCondition, gives_readChild below,
    gives_readOptionalChild below, ↓existsAndEq,
    and_true, true_and, exists_const, Checked.gives_pure, Option.pure_def,
    Option.bind_eq_bind,
    Option.bind_some]
  constructor
  · rintro ⟨condition, conditionAt, accepted, value, whenTrue,
      ⟨trueAt, document⟩, otherwise, falseAt, rfl⟩
    exact ⟨condition, value, whenTrue, otherwise, conditionAt, accepted,
      trueAt, document, falseAt, rfl⟩
  · rintro ⟨condition, value, whenTrue, otherwise, conditionAt, accepted,
      trueAt, document, falseAt, rfl⟩
    exact ⟨condition, conditionAt, accepted, value, whenTrue,
      ⟨trueAt, document⟩, otherwise, falseAt, rfl⟩

theorem gives_readFanout {node? : Option Node} :
    (readFanout members path).Gives node? ↔
      ∃ items branches join, members.get? "branches" = some (.array items) ∧
        NodeDocuments items branches ∧ 2 ≤ branches.length ∧
        members.get? "join" = some (.string (JoinPolicy.text join)) ∧
        node? = some (.fanout branches join) := by
  rw [readFanout]
  simp only [Checked.gives_bind, gives_recordUnknownKeys,
    gives_readNodes below, ↓existsAndEq, and_true, true_and, exists_const,
    Option.pure_def, Option.bind_eq_bind, Option.bind_some]
  constructor
  · rintro ⟨items, branches, ⟨branchesAt, documents⟩, rest⟩
    by_cases few : branches.length < 2
    · simp [few, Finding.severity] at rest
    · have joined :
          ∃ join : JoinPolicy, members.get? "join" = some (.string join.text) ∧
          node? = some (.fanout branches join) := by
        simpa [few] using rest
      obtain ⟨join, joinAt, rfl⟩ := joined
      exact ⟨items, branches, join, branchesAt, documents, by omega, joinAt,
        rfl⟩
  · rintro ⟨items, branches, join, branchesAt, documents, several, joinAt, rfl⟩
    refine ⟨items, branches, ⟨branchesAt, documents⟩, ?_⟩
    have notFew : ¬branches.length < 2 := by omega
    simpa [notFew] using joinAt

theorem gives_readRoutes {routes? : Option (List (String × Node))} :
    (readRoutes members path).Gives routes? ↔
      ∃ entries routes, members.get? "sub_workflows" = some (.object entries) ∧
        RouteDocuments entries routes ∧ routes ≠ [] ∧
        routes? = some routes := by
  rw [readRoutes]
  split
  · rename_i entries found
    have each := fun entry member =>
      below entry.2 (sizeOf_lt_of_object found entry member)
    cases entries with
    | nil =>
        simp [found, Finding.severity]
        rintro routes ⟨⟩ notEmpty
        exact absurd rfl notEmpty
    | cons entry entries =>
        simp [found, gives_readRoutesFrom each]
        constructor
        · rintro ⟨routes, documents, rfl⟩
          refine ⟨routes, documents, ?_, rfl⟩
          cases documents
          simp
        · rintro ⟨routes, documents, _, rfl⟩
          exact ⟨routes, documents, rfl⟩
  · rename_i other noObject found
    have noEntries : ∀ entries, other ≠ .object entries := by
      rintro entries rfl
      exact noObject entries rfl
    simp [found, Finding.severity, noEntries]
  · rename_i found
    simp [found, Finding.severity]

theorem gives_readOrchestrator {node? : Option Node} :
    (readOrchestrator members path).Gives node? ↔
      ∃ entries routes rules fallback,
        members.get? "sub_workflows" = some (.object entries) ∧
        RouteDocuments entries routes ∧
        routes ≠ [] ∧ RulesAt members rules ∧
        OptionalText members "default" fallback ∧
        LawfulRouting (routes.map Prod.fst) rules fallback ∧
        node? = some (.dispatch (Sorted.ofList routes) rules fallback) := by
  rw [readOrchestrator]
  simp only [Checked.gives_bind, gives_recordUnknownKeys,
    gives_readRoutes below, ↓existsAndEq, and_true, true_and, exists_const]
  constructor
  · rintro ⟨entries, routes, ⟨routesAt, documents, notEmpty⟩, rest⟩
    obtain ⟨rules, fallback, rulesAt, fallbackAt, routing, rfl⟩ :=
      (gives_readDispatch routesAt documents.map_fst).mp rest
    exact ⟨entries, routes, rules, fallback, routesAt, documents, notEmpty,
      rulesAt, fallbackAt, routing, rfl⟩
  · rintro ⟨entries, routes, rules, fallback, routesAt, documents, notEmpty,
      rulesAt, fallbackAt, routing, rfl⟩
    refine ⟨entries, routes, ⟨routesAt, documents, notEmpty⟩, ?_⟩
    exact (gives_readDispatch routesAt documents.map_fst).mpr
      ⟨rules, fallback, rulesAt, fallbackAt, routing, rfl⟩

end Members

/-- Reading a value as a tree comes to a tree without errors exactly when the
value is a document of that tree. -/
theorem readsBySchema (value : Value) : ReadsBySchema value := by
  intro path node?
  cases value with
  | object members =>
      have below : ∀ value : Value,
          sizeOf value < sizeOf members → ReadsBySchema value :=
        fun value _ => readsBySchema value
      constructor
      · rw [readNode]
        split
        · rename_i type
          intro gives
          obtain ⟨tool, params, output, toolAt, paramsAt, outputAt, lawful,
            rfl⟩ :=
            gives_readCall.mp gives
          exact ⟨_, .call type toolAt paramsAt outputAt lawful, rfl⟩
        · rename_i type
          intro gives
          obtain ⟨items, steps, stepsAt, documents, notEmpty, rfl⟩ :=
            (gives_readSequence below).mp gives
          exact ⟨_, .sequence type stepsAt documents notEmpty, rfl⟩
        · rename_i type
          intro gives
          obtain ⟨condition, value, whenTrue, otherwise, conditionAt, accepted,
            trueAt, document, falseAt, rfl⟩ :=
            (gives_readBranch below).mp gives
          cases otherwise with
          | none =>
              exact ⟨_,
                .branch type conditionAt accepted trueAt document falseAt, rfl⟩
          | some other =>
              obtain ⟨value, falseAt, otherDocument⟩ := falseAt
              exact ⟨_,
                .branchElse type conditionAt accepted trueAt document falseAt
                  otherDocument, rfl⟩
        · rename_i type
          intro gives
          obtain ⟨items, branches, join, branchesAt, documents, several,
            joinAt, rfl⟩ :=
            (gives_readFanout below).mp gives
          exact ⟨_, .fanout type branchesAt documents several joinAt, rfl⟩
        · rename_i type
          intro gives
          obtain ⟨entries, routes, rules, fallback, routesAt, documents,
            notEmpty, rulesAt, fallbackAt, routing, rfl⟩ :=
            (gives_readOrchestrator below).mp gives
          exact ⟨_,
            .dispatch type routesAt documents notEmpty rulesAt fallbackAt
              routing, rfl⟩
        all_goals simp [Finding.severity]
      · rintro ⟨node, document, rfl⟩
        rw [readNode]
        cases document with
        | call type toolAt paramsAt outputAt lawful =>
            simp only [type]
            exact gives_readCall.mpr
              ⟨_, _, _, toolAt, paramsAt, outputAt, lawful, rfl⟩
        | sequence type stepsAt documents notEmpty =>
            simp only [type]
            exact (gives_readSequence below).mpr
              ⟨_, _, stepsAt, documents, notEmpty, rfl⟩
        | branch type conditionAt accepted trueAt document falseAt =>
            simp only [type]
            exact (gives_readBranch below).mpr
              ⟨_, _, _, none, conditionAt, accepted, trueAt, document, falseAt,
                rfl⟩
        | branchElse type conditionAt accepted trueAt document falseAt
            otherDocument =>
            simp only [type]
            exact (gives_readBranch below).mpr ⟨_, _, _, some _, conditionAt,
              accepted, trueAt, document, ⟨_, falseAt, otherDocument⟩, rfl⟩
        | fanout type branchesAt documents several joinAt =>
            simp only [type]
            exact (gives_readFanout below).mpr
              ⟨_, _, _, branchesAt, documents, several, joinAt, rfl⟩
        | dispatch type routesAt documents notEmpty rulesAt fallbackAt
            routing =>
            simp only [type]
            exact (gives_readOrchestrator below).mpr
              ⟨_, _, _, _, routesAt, documents, notEmpty, rulesAt, fallbackAt,
                routing, rfl⟩
  | _ =>
      rw [readNode]
      · simp [Finding.severity]
        rintro node ⟨⟩
      · rintro members ⟨⟩
termination_by sizeOf value

end Document

end Workflow
