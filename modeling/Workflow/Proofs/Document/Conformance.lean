import Mathlib.Data.List.Nodup
import Workflow.Proofs.Document.Acceptance
import Workflow.Proofs.Document.Grammar
import Workflow.Proofs.Limits.Walk
import Workflow.Proofs.Scope.Occurrences

/-!
# Documents that conform

The schema of documents over their values alone: which keys an object has, of
which shape their values are, and which texts are allowed there.  A document is
accepted exactly when it conforms, and the tree that it is then the document of
keeps within the limits and reads no unbound name.
-/

namespace Workflow.Document

/-- The key is there, and its value is as asked. -/
def Has (members : Members) (key : String) (asked : Value → Prop) : Prop :=
  ∃ value, members.get? key = some value ∧ asked value

/-- The key is absent, or its value is null or as asked. -/
def MayHave (members : Members) (key : String) (asked : Value → Prop) : Prop :=
  ∀ value, members.get? key = some value → value = .null ∨ asked value

def IsText (asked : String → Prop) (value : Value) : Prop :=
  ∃ text, value = .string text ∧ asked text

def IsParams (value : Value) : Prop :=
  ∃ params : Members, value = .object params ∧
    ∀ param ∈ params,
      IsName param.1 ∧ ∀ text ∈ param.2.texts, IsTemplate text.toList

def IsCondition (text : String) : Prop :=
  Condition.check text = .ok ()

/-- A rule that leads to one of the targets. -/
def IsRule (targets : List String) (value : Value) : Prop :=
  ∃ members : Members, value = .object members ∧
    Has members "condition" (IsText IsCondition) ∧
    Has members "target" (IsText (· ∈ targets))

def IsRules (targets : List String) (value : Value) : Prop :=
  ∃ rules, value = .array rules ∧ ∀ rule ∈ rules, IsRule targets rule

/-- The value has the shape of a node of one of the five kinds, and so have all
nodes below it. -/
inductive IsNode : Value → Prop where
  | call {members : Members}
      (type : members.get? "type" = some (.string "tool_call"))
      (tool : Has members "tool" (IsText IsName))
      (params : MayHave members "params" IsParams)
      (output : MayHave members "output" (IsText IsName)) :
      IsNode (.object members)
  | sequence {members : Members} {steps : List Value}
      (type : members.get? "type" = some (.string "sequential"))
      (stepsAt : members.get? "steps" = some (.array steps))
      (notEmpty : steps ≠ [])
      (each : ∀ step ∈ steps, IsNode step) : IsNode (.object members)
  | branch {members : Members} {whenTrue : Value}
      (type : members.get? "type" = some (.string "conditional"))
      (condition : Has members "condition" (IsText IsCondition))
      (trueAt : members.get? "if_true" = some whenTrue)
      (isNode : IsNode whenTrue)
      (isOther : ∀ otherwise, members.get? "if_false" = some otherwise →
        otherwise ≠ .null → IsNode otherwise) : IsNode (.object members)
  | fanout {members : Members} {branches : List Value}
      (type : members.get? "type" = some (.string "parallel"))
      (branchesAt : members.get? "branches" = some (.array branches))
      (several : 2 ≤ branches.length)
      (each : ∀ branch ∈ branches, IsNode branch)
      (join : Has members "join"
        (IsText fun text =>
          text = "wait-for-all" ∨ text = "first-to-finish")) :
      IsNode (.object members)
  | dispatch {members entries : Members}
      (type : members.get? "type" = some (.string "orchestrator"))
      (routesAt : members.get? "sub_workflows" = some (.object entries))
      (notEmpty : entries ≠ [])
      (names : ∀ entry ∈ entries, IsName entry.1)
      (each : ∀ entry ∈ entries, IsNode entry.2)
      (rules : MayHave members "rules" (IsRules entries.keys))
      (fallback : MayHave members "default" (IsText (· ∈ entries.keys)))
      (leads :
        (∃ rule rules, members.get? "rules" = some (.array (rule :: rules))) ∨
        ∃ target, members.get? "default" = some (.string target)) :
      IsNode (.object members)

/-- The declaration of an input or an output. -/
def IsDeclaration (value : Value) : Prop :=
  ∃ members : Members,
    value = .object members ∧ Has members "name" (IsText IsName) ∧
    Has members "type"
      (IsText fun text => ∃ type : ParamType, text = type.text) ∧
    MayHave members "description" (IsText fun _ => True)

def declaredName : Value → Option Value
  | .object members => Members.get? members "name"
  | _ => none

/-- Declarations, no two of the same name. -/
def IsDeclarations (value : Value) : Prop :=
  ∃ items, value = .array items ∧ (∀ item ∈ items, IsDeclaration item) ∧
    (items.map declaredName).Nodup

/-- What the members of a document are held to; other keys are free. -/
structure Conforms (members : Members) : Prop where
  name : Has members "name" (IsText IsName)
  description : MayHave members "description" (IsText fun _ => True)
  version : Has members "version" (IsText IsVersion)
  inputs : Has members "inputs" IsDeclarations
  outputs : MayHave members "outputs" IsDeclarations
  metadata : MayHave members "metadata" fun value => ∃ entries,
    value = .object entries
  workflow : Has members "workflow" IsNode

variable {members : Members} {key : String}

theorem mayHave_of_absent {asked : Value → Prop}
    (absent : members.get? key = none ∨ members.get? key = some .null) :
    MayHave members key asked := by
  intro value found
  rcases absent with absent | absent
  · simp [absent] at found
  · exact .inl (by simpa [absent] using found.symm)

theorem mayHave_of_has {asked : Value → Prop} (has : Has members key asked) :
    MayHave members key asked := by
  obtain ⟨value, found, isAsked⟩ := has
  intro other same
  obtain rfl : value = other := by simpa [found] using same
  exact .inr isAsked

theorem MayHave.cases
    {asked : Value → Prop} (may : MayHave members key asked) :
    (members.get? key = none ∨ members.get? key = some .null) ∨
    Has members key asked := by
  cases found : members.get? key with
  | none => exact .inl (.inl rfl)
  | some value =>
      rcases may value found with rfl | isAsked
      · exact .inl (.inr rfl)
      · exact .inr ⟨value, found, isAsked⟩

theorem has_text {asked : String → Prop} :
    Has members key (IsText asked) ↔
      ∃ text, members.get? key = some (.string text) ∧ asked text := by
  constructor
  · rintro ⟨_, found, text, rfl, isAsked⟩
    exact ⟨text, found, isAsked⟩
  · rintro ⟨text, found, isAsked⟩
    exact ⟨_, found, text, rfl, isAsked⟩

theorem mayHave_text {asked : String → Prop} :
    MayHave members key (IsText asked) ↔
      ∃ text, OptionalText members key text ∧ ∀ given ∈ text, asked given := by
  constructor
  · intro may
    rcases may.cases with absent | has
    · exact ⟨none, absent, by simp⟩
    · obtain ⟨text, found, isAsked⟩ := has_text.mp has
      exact ⟨some text, found, by simpa using isAsked⟩
  · rintro ⟨text, optional, isAsked⟩
    cases text with
    | none => exact mayHave_of_absent optional
    | some text =>
        exact mayHave_of_has (has_text.mpr ⟨text, optional, isAsked text rfl⟩)

theorem OptionalText.ne_none_iff {text : Option String}
    (optional : OptionalText members key text) :
    text ≠ none ↔ ∃ given, members.get? key = some (.string given) := by
  cases text with
  | some text => exact ⟨fun _ => ⟨text, optional⟩, fun _ => by simp⟩
  | none => rcases optional with absent | absent <;> simp [absent]

/-- Items that each have a document have one together. -/
theorem exists_forall₂_iff
    {α β : Type} {relation : α → β → Prop} (good : β → Prop) {items : List α} :
    (∃ results,
      items.Forall₂ relation results ∧ ∀ result ∈ results, good result) ↔
      ∀ item ∈ items, ∃ result, relation item result ∧ good result := by
  induction items with
  | nil => simp
  | cons item items induction =>
      rw [List.forall_mem_cons, ← induction]
      constructor
      · rintro ⟨_, related, allGood⟩
        cases related with
        | cons first rest =>
            obtain ⟨firstGood, restGood⟩ := List.forall_mem_cons.mp allGood
            exact ⟨⟨_, first, firstGood⟩, _, rest, restGood⟩
      · rintro ⟨⟨result, first, firstGood⟩, results, rest, restGood⟩
        exact ⟨result :: results, .cons first rest,
          List.forall_mem_cons.mpr ⟨firstGood, restGood⟩⟩

theorem mayHave_params :
    MayHave members "params" IsParams ↔
      ∃ params, ParamsAt members params ∧ ∀ param ∈ params,
        isIdentifier param.1 = true ∧
        ∃ references, param.2.references = .ok references := by
  simp only [isIdentifier_iff, Value.references_ok_iff]
  constructor
  · intro may
    rcases may.cases with absent | ⟨_, found, params, rfl, good⟩
    · exact ⟨[], .inr ⟨rfl, absent⟩, by simp⟩
    · exact ⟨params, .inl found, good⟩
  · rintro ⟨params, found | ⟨_, absent⟩, good⟩
    · exact mayHave_of_has ⟨_, found, params, rfl, good⟩
    · exact mayHave_of_absent absent

theorem isRule_iff {targets : List String} {value : Value} :
    IsRule targets value ↔
      ∃ rule, RuleDocument value rule ∧
        Condition.check rule.condition = .ok () ∧ rule.target ∈ targets := by
  simp only [IsRule, has_text]
  constructor
  · rintro ⟨members, rfl, ⟨condition, conditionAt, accepted⟩, target, targetAt,
      known⟩
    exact ⟨⟨condition, target⟩, ⟨members, rfl, conditionAt, targetAt⟩,
      accepted, known⟩
  · rintro ⟨rule, ⟨members, rfl, conditionAt, targetAt⟩, accepted, known⟩
    exact ⟨members, rfl, ⟨_, conditionAt, accepted⟩, _, targetAt, known⟩

theorem mayHave_rules {targets : List String} :
    MayHave members "rules" (IsRules targets) ↔
      ∃ rules, RulesAt members rules ∧ ∀ rule ∈ rules,
        Condition.check rule.condition = .ok () ∧ rule.target ∈ targets := by
  constructor
  · intro may
    rcases may.cases with absent | ⟨_, found, items, rfl, each⟩
    · exact ⟨[], .inr ⟨rfl, absent⟩, by simp⟩
    · simp only [isRule_iff, ← exists_forall₂_iff] at each
      obtain ⟨rules, documents, good⟩ := each
      exact ⟨rules, .inl ⟨items, found, documents⟩, good⟩
  · rintro ⟨rules, ⟨items, found, documents⟩ | ⟨_, absent⟩, good⟩
    · refine mayHave_of_has ⟨_, found, items, rfl, ?_⟩
      simp only [isRule_iff, ← exists_forall₂_iff]
      exact ⟨rules, documents, good⟩
    · exact mayHave_of_absent absent

theorem RulesAt.ne_nil_iff
    {rules : List Rule} (rulesAt : RulesAt members rules) :
    rules ≠ [] ↔
      ∃ first rest, members.get? "rules" = some (.array (first :: rest)) := by
  rcases rulesAt with ⟨items, found, documents⟩ | ⟨rfl, absent⟩
  · cases documents <;> simp [found]
  · rcases absent with absent | absent <;> simp [absent]

theorem NodeDocuments.length_eq
    {values : List Value} {nodes : List Node}
    (documents : NodeDocuments values nodes) :
    values.length = nodes.length := by
  induction values generalizing nodes with
  | nil =>
      cases documents
      rfl
  | cons value values induction =>
      cases documents with
      | cons _ rest => exact congrArg (· + 1) (induction rest)

theorem NodeDocuments.eq_nil_iff {values : List Value} {nodes : List Node}
    (documents : NodeDocuments values nodes) : values = [] ↔ nodes = [] := by
  cases documents <;> simp

theorem RouteDocuments.eq_nil_iff
    {entries : Members} {routes : List (String × Node)}
    (documents : RouteDocuments entries routes) :
    entries = [] ↔ routes = [] := by
  cases documents <;> simp

theorem exists_nodeDocuments {values : List Value} :
    (∃ nodes, NodeDocuments values nodes) ↔
      ∀ value ∈ values, ∃ node, NodeDocument value node := by
  induction values with
  | nil => exact ⟨fun _ => by simp, fun _ => ⟨[], .nil⟩⟩
  | cons value values induction =>
      rw [List.forall_mem_cons, ← induction]
      constructor
      · rintro ⟨_, _ | ⟨first, rest⟩⟩
        exact ⟨⟨_, first⟩, _, rest⟩
      · rintro ⟨⟨node, first⟩, nodes, rest⟩
        exact ⟨node :: nodes, .cons first rest⟩

theorem exists_routeDocuments {entries : Members} :
    (∃ routes, RouteDocuments entries routes) ↔
      ∀ entry ∈ entries,
        IsName entry.1 ∧ ∃ node, NodeDocument entry.2 node := by
  induction entries with
  | nil => exact ⟨fun _ => by simp, fun _ => ⟨[], .nil⟩⟩
  | cons entry entries induction =>
      rw [List.forall_mem_cons, ← induction]
      constructor
      · rintro ⟨_, _ | ⟨identifier, first, rest⟩⟩
        exact ⟨⟨isIdentifier_iff.mp identifier, _, first⟩, _, rest⟩
      · rintro ⟨⟨name, node, first⟩, routes, rest⟩
        exact ⟨_, .cons (isIdentifier_iff.mpr name) first rest⟩

/-- A conforming value is the document of a tree. -/
theorem IsNode.exists_nodeDocument {value : Value} (isNode : IsNode value) :
    ∃ node, NodeDocument value node := by
  induction isNode with
  | call type tool params output =>
      obtain ⟨tool, toolAt, isTool⟩ := has_text.mp tool
      obtain ⟨params, paramsAt, lawfulParams⟩ := mayHave_params.mp params
      obtain ⟨output, outputAt, isOutput⟩ := mayHave_text.mp output
      refine ⟨_,
        .call type toolAt paramsAt outputAt
          ⟨isIdentifier_iff.mpr isTool, lawfulParams, ?_⟩⟩
      intro target given
      exact isIdentifier_iff.mpr (isOutput target given)
  | sequence type stepsAt notEmpty _ induction =>
      obtain ⟨nodes, documents⟩ := exists_nodeDocuments.mpr induction
      exact ⟨_,
        .sequence type stepsAt documents
          (mt documents.eq_nil_iff.mpr notEmpty)⟩
  | @branch members whenTrue type condition trueAt _ _ whenTrueDocument
      otherDocument =>
      obtain ⟨condition, conditionAt, accepted⟩ := has_text.mp condition
      obtain ⟨first, document⟩ := whenTrueDocument
      cases falseAt : members.get? "if_false" with
      | none =>
          exact ⟨_,
            .branch type conditionAt accepted trueAt document (.inl falseAt)⟩
      | some other =>
          by_cases absent : other = .null
          · subst absent
            exact ⟨_,
              .branch type conditionAt accepted trueAt document (.inr falseAt)⟩
          · obtain ⟨second, otherDocument⟩ :=
              otherDocument other falseAt absent
            exact ⟨_,
              .branchElse type conditionAt accepted trueAt document falseAt
                otherDocument⟩
  | fanout type branchesAt several _ join induction =>
      obtain ⟨nodes, documents⟩ := exists_nodeDocuments.mpr induction
      obtain ⟨text, joinAt, known⟩ := has_text.mp join
      have atLeastTwo : 2 ≤ nodes.length := documents.length_eq ▸ several
      rcases known with rfl | rfl
      · exact ⟨.fanout nodes .waitForAll,
          .fanout type branchesAt documents atLeastTwo joinAt⟩
      · exact ⟨.fanout nodes .firstToFinish,
          .fanout type branchesAt documents atLeastTwo joinAt⟩
  | @dispatch members entries type routesAt notEmpty names _ rules fallback
      leads induction =>
      obtain ⟨routes, documents⟩ :=
        exists_routeDocuments.mpr fun entry member =>
        ⟨names entry member, induction entry member⟩
      obtain ⟨rules, rulesAt, lawfulRules⟩ := mayHave_rules.mp rules
      obtain ⟨fallback, fallbackAt, lawfulFallback⟩ := mayHave_text.mp fallback
      refine ⟨_,
        .dispatch type routesAt documents
          (mt documents.eq_nil_iff.mpr notEmpty) rulesAt fallbackAt
          ⟨?_, ?_, ?_⟩⟩
      · rwa [documents.map_fst]
      · rwa [documents.map_fst]
      · rwa [rulesAt.ne_nil_iff, fallbackAt.ne_none_iff]

mutual

/-- The document of a tree conforms. -/
theorem NodeDocument.isNode
    {value : Value} {node : Node} (document : NodeDocument value node) :
    IsNode value :=
  match document with
  | .call type toolAt paramsAt outputAt lawful => by
      refine .call type
        (has_text.mpr ⟨_, toolAt, isIdentifier_iff.mp lawful.tool⟩)
        (mayHave_params.mpr ⟨_, paramsAt, lawful.params⟩)
        (mayHave_text.mpr ⟨_, outputAt, ?_⟩)
      intro target given
      exact isIdentifier_iff.mp (lawful.output target given)
  | .sequence type stepsAt documents notEmpty =>
      .sequence type stepsAt (mt documents.eq_nil_iff.mp notEmpty)
        documents.isNode
  | .branch type conditionAt accepted trueAt document falseAt => by
      refine .branch type (has_text.mpr ⟨_, conditionAt, accepted⟩) trueAt
        document.isNode ?_
      intro other found present
      rcases falseAt with absent | absent
      · simp [absent] at found
      · exact absurd (by simpa [absent] using found.symm) present
  | .branchElse type conditionAt accepted trueAt document falseAt
      otherDocument =>
      by
      have otherIsNode := otherDocument.isNode
      refine .branch type (has_text.mpr ⟨_, conditionAt, accepted⟩) trueAt
        document.isNode ?_
      intro other found _
      rwa [← Option.some.inj (falseAt.symm.trans found)]
  | .fanout type branchesAt documents several joinAt => by
      refine .fanout type branchesAt (documents.length_eq ▸ several)
        documents.isNode (has_text.mpr ⟨_, joinAt, ?_⟩)
      cases ‹JoinPolicy› with
      | waitForAll => exact .inl rfl
      | firstToFinish => exact .inr rfl
  | .dispatch type routesAt documents notEmpty rulesAt fallbackAt routing => by
      have ofRule := routing.ofRule
      have ofFallback := routing.ofFallback
      have leads := routing.leads
      rw [documents.map_fst] at ofRule ofFallback
      rw [rulesAt.ne_nil_iff, fallbackAt.ne_none_iff] at leads
      have each := exists_routeDocuments.mp ⟨_, documents⟩
      exact .dispatch type routesAt (mt documents.eq_nil_iff.mp notEmpty)
        (fun entry member => (each entry member).1) documents.isNode
        (mayHave_rules.mpr ⟨_, rulesAt, ofRule⟩)
        (mayHave_text.mpr ⟨_, fallbackAt, ofFallback⟩)
        leads

theorem NodeDocuments.isNode
    {values : List Value} {nodes : List Node}
    (documents : NodeDocuments values nodes) :
    ∀ value ∈ values, IsNode value :=
  match documents with
  | .nil => by simp
  | .cons first rest => List.forall_mem_cons.mpr ⟨first.isNode, rest.isNode⟩

theorem RouteDocuments.isNode
    {entries : Members} {routes : List (String × Node)}
    (documents : RouteDocuments entries routes) :
    ∀ entry ∈ entries, IsNode entry.2 :=
  match documents with
  | .nil => by simp
  | .cons _ first rest => List.forall_mem_cons.mpr ⟨first.isNode, rest.isNode⟩

end

/-- What readers of declarations have in common: lists of documents without
repeated names are lists of declarations without repeated names. -/
theorem exists_declared_iff
    {α : Type} {relation : Value → α → Prop} {nameOf : α → String}
    (single : ∀ value,
      (∃ entry, relation value entry ∧ isIdentifier (nameOf entry) = true) ↔
        IsDeclaration value)
    (named : ∀ value entry, relation value entry →
      declaredName value = some (.string (nameOf entry)))
    {items : List Value} :
    (∃ entries,
      items.Forall₂ relation entries ∧ LawfulNames [] (entries.map nameOf)) ↔
      (∀ item ∈ items, IsDeclaration item) ∧
      (items.map declaredName).Nodup := by
  have names : ∀ entries, items.Forall₂ relation entries →
      items.map declaredName =
        (entries.map nameOf).map (some ∘ Value.string) := by
    intro entries documents
    induction documents with
    | nil => rfl
    | cons first rest induction => simp [named _ _ first, induction]
  have injective : Function.Injective (some ∘ Value.string) := by
    intro left right same
    simpa using same
  simp only [← single, ← exists_forall₂_iff]
  constructor
  · rintro ⟨entries, documents, lawful⟩
    refine ⟨⟨entries, documents, ?_⟩, ?_⟩
    · exact fun entry member => lawful.identifier _ (List.mem_map_of_mem
          member)
    · rw [names entries documents, List.nodup_map_iff injective]
      exact lawful.distinct
  · rintro ⟨⟨entries, documents, identifiers⟩, distinct⟩
    rw [names entries documents, List.nodup_map_iff injective] at distinct
    refine ⟨entries, documents, by simpa using identifiers, distinct, by simp⟩

theorem exists_inputs_iff {items : List Value} :
    (∃ inputs, items.Forall₂ InputDocument inputs ∧
      LawfulNames [] (inputs.map Input.name)) ↔
      (∀ item ∈ items, IsDeclaration item) ∧
      (items.map declaredName).Nodup := by
  apply exists_declared_iff
  · intro value
    simp only [IsDeclaration, has_text, mayHave_text]
    constructor
    · rintro ⟨input, ⟨members, rfl, nameAt, typeAt, descriptionAt, _⟩,
        identifier⟩
      exact ⟨members, rfl, ⟨_, nameAt, isIdentifier_iff.mp identifier⟩,
        ⟨_, typeAt, _, rfl⟩, _, descriptionAt, fun _ _ => trivial⟩
    · rintro ⟨members, rfl, ⟨name, nameAt, isName⟩, ⟨_, typeAt, type, rfl⟩,
        description, descriptionAt, _⟩
      exact ⟨⟨name, type, description, sample? members⟩,
        ⟨members, rfl, nameAt, typeAt, descriptionAt, rfl⟩,
        isIdentifier_iff.mpr isName⟩
  · rintro _ input ⟨members, rfl, nameAt, _⟩
    exact nameAt

theorem exists_outputs_iff {items : List Value} :
    (∃ outputs, items.Forall₂ OutputDocument outputs ∧
      LawfulNames [] (outputs.map Output.name)) ↔
      (∀ item ∈ items, IsDeclaration item) ∧
      (items.map declaredName).Nodup := by
  apply exists_declared_iff
  · intro value
    simp only [IsDeclaration, has_text, mayHave_text]
    constructor
    · rintro ⟨output, ⟨members, rfl, nameAt, typeAt, descriptionAt⟩,
        identifier⟩
      exact ⟨members, rfl, ⟨_, nameAt, isIdentifier_iff.mp identifier⟩,
        ⟨_, typeAt, _, rfl⟩, _, descriptionAt, fun _ _ => trivial⟩
    · rintro ⟨members, rfl, ⟨name, nameAt, isName⟩, ⟨_, typeAt, type, rfl⟩,
        description, descriptionAt, _⟩
      exact ⟨⟨name, type, description⟩,
        ⟨members, rfl, nameAt, typeAt, descriptionAt⟩,
        isIdentifier_iff.mpr isName⟩
  · rintro _ output ⟨members, rfl, nameAt, _⟩
    exact nameAt

theorem has_inputs :
    Has members "inputs" IsDeclarations ↔
      ∃ inputs,
        InputsAt members inputs ∧ LawfulNames [] (inputs.map Input.name) := by
  constructor
  · rintro ⟨_, found, items, rfl, declarations⟩
    obtain ⟨inputs, documents, lawful⟩ := exists_inputs_iff.mpr declarations
    exact ⟨inputs, ⟨items, found, documents⟩, lawful⟩
  · rintro ⟨inputs, ⟨items, found, documents⟩, lawful⟩
    exact ⟨_, found, items, rfl,
      exists_inputs_iff.mp ⟨inputs, documents, lawful⟩⟩

theorem mayHave_outputs :
    MayHave members "outputs" IsDeclarations ↔
      ∃ outputs, OutputsAt members outputs ∧
        LawfulNames [] (outputs.map Output.name) := by
  constructor
  · intro may
    rcases may.cases with absent | ⟨_, found, items, rfl, declarations⟩
    · exact ⟨[], .inr ⟨rfl, absent⟩, lawfulNames_nil⟩
    · obtain ⟨outputs, documents, lawful⟩ :=
        exists_outputs_iff.mpr declarations
      exact ⟨outputs, .inl ⟨items, found, documents⟩, lawful⟩
  · rintro ⟨outputs, ⟨items, found, documents⟩ | ⟨_, absent⟩, lawful⟩
    · exact mayHave_of_has ⟨_, found, items, rfl,
        exists_outputs_iff.mp ⟨outputs, documents, lawful⟩⟩
    · exact mayHave_of_absent absent

theorem mayHave_metadata :
    MayHave members "metadata"
      (fun value => ∃ entries, value = .object entries) ↔
      ∃ metadata, MetadataAt members metadata := by
  constructor
  · intro may
    rcases may.cases with absent | ⟨_, found, entries, rfl⟩
    · exact ⟨[], .inr ⟨rfl, absent⟩⟩
    · exact ⟨_, .inl ⟨entries, found, rfl⟩⟩
  · rintro ⟨_, ⟨entries, found, _⟩ | ⟨_, absent⟩⟩
    · exact mayHave_of_has ⟨_, found, entries, rfl⟩
    · exact mayHave_of_absent absent

/-- Conforming members are those of the document of a specification, and only
they are. -/
theorem conforms_iff :
    Conforms members ↔ ∃ spec, SpecMembers members spec := by
  constructor
  · intro conforms
    obtain ⟨name, nameAt, isName⟩ := has_text.mp conforms.name
    obtain ⟨description, descriptionAt, _⟩ :=
      mayHave_text.mp conforms.description
    obtain ⟨version, versionAt, isVersion⟩ := has_text.mp conforms.version
    obtain ⟨inputs, inputsAt, lawfulInputs⟩ := has_inputs.mp conforms.inputs
    obtain ⟨outputs, outputsAt, lawfulOutputs⟩ :=
      mayHave_outputs.mp conforms.outputs
    obtain ⟨metadata, metadataAt⟩ := mayHave_metadata.mp conforms.metadata
    obtain ⟨value, workflowAt, isNode⟩ := conforms.workflow
    obtain ⟨workflow, document⟩ := isNode.exists_nodeDocument
    exact ⟨⟨name, description.getD "", version, inputs, outputs, workflow,
        metadata⟩, nameAt, isIdentifier_iff.mpr isName,
      ⟨description, descriptionAt, rfl⟩, versionAt,
      isVersion_iff.mpr isVersion, inputsAt, lawfulInputs, outputsAt,
      lawfulOutputs, metadataAt, value, workflowAt, document⟩
  · rintro ⟨spec, document⟩
    obtain ⟨description, descriptionAt, _⟩ := document.descriptionAt
    obtain ⟨value, workflowAt, tree⟩ := document.workflowAt
    exact {
      name :=
        has_text.mpr ⟨_, document.nameAt, isIdentifier_iff.mp document.name⟩
      description :=
        mayHave_text.mpr ⟨description, descriptionAt, fun _ _ => trivial⟩
      version :=
        has_text.mpr ⟨_, document.versionAt, isVersion_iff.mp document.version⟩
      inputs := has_inputs.mpr ⟨_, document.inputsAt, document.inputs⟩
      outputs := mayHave_outputs.mpr ⟨_, document.outputsAt, document.outputs⟩
      metadata := mayHave_metadata.mpr ⟨_, document.metadataAt⟩
      workflow := ⟨value, workflowAt, tree.isNode⟩ }

theorem SpecDocument.unique
    {document : Value} {left right : Spec}
    (ofLeft : SpecDocument document left)
    (ofRight : SpecDocument document right) :
    left = right := by
  have readLeft := (gives_readSpec.mpr ⟨left, ofLeft, rfl⟩).value
  have readRight := (gives_readSpec.mpr ⟨right, ofRight, rfl⟩).value
  exact Option.some.inj (readLeft.symm.trans readRight)

theorem admissible_iff {spec : Spec} {limits : Limits} :
    spec.Admissible limits ↔
      spec.workflow.Within limits (.field .document "workflow") ∧
      spec.Closed := by
  rw [← Limits.violations_eq_nil, ← Spec.errors_analyze_eq_nil]
  simp only [Spec.Admissible, Spec.issues, List.forall_mem_append,
    List.forall_mem_map, Violation.issue, ScopeError.issue, ScopeWarning.issue,
    ne_eq, not_true_eq_false, reduceCtorEq, not_false_eq_true, implies_true,
    and_true, List.eq_nil_iff_forall_not_mem]

/-- Exactly the conforming documents are accepted whose tree keeps within the
limits and reads no unbound name; and a document conforms exactly when it is
that of a specification, of which there is then only one. -/
theorem exists_accepted_iff_conforms (limits : Limits) (document : Value) :
    ((∃ accepted, accept limits document = .ok accepted) ↔
      (∃ members, document = .object members ∧ Conforms members) ∧
        ∀ spec, SpecDocument document spec →
          spec.workflow.Within limits (.field .document "workflow") ∧
          spec.Closed) ∧
    ((∃ members, document = .object members ∧ Conforms members) ↔
      ∃ spec, SpecDocument document spec ∧
        ∀ other, SpecDocument document other → other = spec) := by
  have shape : (∃ members, document = .object members ∧ Conforms members) ↔
      ∃ spec, SpecDocument document spec := by
    simp only [conforms_iff, SpecDocument]
    exact ⟨fun ⟨members, same, spec, ofMembers⟩ =>
      ⟨spec, members, same, ofMembers⟩,
      fun ⟨spec, members, same, ofMembers⟩ => ⟨members, same, spec, ofMembers⟩⟩
  constructor
  · rw [shape]
    constructor
    · rintro ⟨accepted, isAccepted⟩
      obtain ⟨ofSpec, admissible⟩ := specDocument_of_accept isAccepted
      refine ⟨⟨_, ofSpec⟩, ?_⟩
      intro spec ofOther
      rw [ofOther.unique ofSpec]
      exact admissible_iff.mp admissible
    · rintro ⟨⟨spec, ofSpec⟩, sound⟩
      have admissible := admissible_iff.mpr (sound spec ofSpec)
      obtain ⟨accepted, isAccepted, _⟩ :=
        exists_accept_iff.mpr ⟨ofSpec, admissible⟩
      exact ⟨accepted, isAccepted⟩
  · rw [shape]
    constructor
    · rintro ⟨spec, ofSpec⟩
      exact ⟨spec, ofSpec, fun other ofOther => ofOther.unique ofSpec⟩
    · rintro ⟨spec, ofSpec, _⟩
      exact ⟨spec, ofSpec⟩

end Workflow.Document
