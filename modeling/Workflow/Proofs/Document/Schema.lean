import Mathlib.Data.List.Forall2
import Workflow.Proofs.Document.Fields

/-!
# The schema of workflow trees

`NodeDocument value node` says that a document value means a tree and that
nothing about it is an error.  What is asked of the tree beyond its shape is
collected in `Node.Lawful`.
-/

namespace Workflow

/-- Names are identifiers, and every text in the parameters is a template. -/
structure ToolCall.Lawful (call : ToolCall) : Prop where
  tool : isIdentifier call.tool = true
  params : ∀ param ∈ call.params,
    isIdentifier param.1 = true ∧
    ∃ references, param.2.references = .ok references
  output : ∀ target ∈ call.output, isIdentifier target = true

/-- Every rule asks an accepted condition, rules and default lead to known
names, and there is a rule or a default. -/
structure LawfulRouting
    (known : List String) (rules : List Rule) (fallback : Option String) :
    Prop where
  ofRule : ∀ rule ∈ rules,
      Condition.check rule.condition = .ok () ∧ rule.target ∈ known
  ofFallback : ∀ target ∈ fallback, target ∈ known
  leads : rules ≠ [] ∨ fallback ≠ none

namespace Document

/-- The parameters of a call, which may be absent or null. -/
def ParamsAt (members : Members) (params : Members) : Prop :=
  members.get? "params" = some (.object params) ∨
    params = [] ∧
    (members.get? "params" = none ∨ members.get? "params" = some .null)

/-- The document of a rule. -/
def RuleDocument (value : Value) (rule : Rule) : Prop :=
  ∃ members : Members, value = .object members ∧
    members.get? "condition" = some (.string rule.condition) ∧
    members.get? "target" = some (.string rule.target)

/-- The rules of an orchestrator, which may be absent or null. -/
def RulesAt (members : Members) (rules : List Rule) : Prop :=
  (∃ items, members.get? "rules" = some (.array items) ∧
    items.Forall₂ RuleDocument rules) ∨
    rules = [] ∧
    (members.get? "rules" = none ∨ members.get? "rules" = some .null)

mutual

/-- The value is the document of a tree without errors. -/
inductive NodeDocument : Value → Node → Prop where
  | call {members params : Members} {tool : String} {output : Option String}
      (type : members.get? "type" = some (.string "tool_call"))
      (toolAt : members.get? "tool" = some (.string tool))
      (paramsAt : ParamsAt members params)
      (outputAt : OptionalText members "output" output)
      (lawful : ToolCall.Lawful ⟨tool, params, output⟩) :
      NodeDocument (.object members) (.call ⟨tool, params, output⟩)
  | sequence {members : Members} {items : List Value} {steps : List Node}
      (type : members.get? "type" = some (.string "sequential"))
      (stepsAt : members.get? "steps" = some (.array items))
      (documents : NodeDocuments items steps) (notEmpty : steps ≠ []) :
      NodeDocument (.object members) (.sequence steps)
  | branch {members : Members} {condition : String} {value : Value}
      {whenTrue : Node}
      (type : members.get? "type" = some (.string "conditional"))
      (conditionAt : members.get? "condition" = some (.string condition))
      (accepted : Condition.check condition = .ok ())
      (trueAt : members.get? "if_true" = some value)
      (document : NodeDocument value whenTrue)
      (falseAt : members.get? "if_false" = none ∨
        members.get? "if_false" = some .null) :
      NodeDocument (.object members) (.branch condition whenTrue none)
  | branchElse {members : Members} {condition : String} {value other : Value}
      {whenTrue otherwise : Node}
      (type : members.get? "type" = some (.string "conditional"))
      (conditionAt : members.get? "condition" = some (.string condition))
      (accepted : Condition.check condition = .ok ())
      (trueAt : members.get? "if_true" = some value)
      (document : NodeDocument value whenTrue)
      (falseAt : members.get? "if_false" = some other)
      (otherDocument : NodeDocument other otherwise) :
      NodeDocument (.object members)
        (.branch condition whenTrue (some otherwise))
  | fanout {members : Members} {items : List Value} {branches : List Node}
      {join : JoinPolicy}
      (type : members.get? "type" = some (.string "parallel"))
      (branchesAt : members.get? "branches" = some (.array items))
      (documents : NodeDocuments items branches)
      (several : 2 ≤ branches.length)
      (joinAt : members.get? "join" = some (.string join.text)) :
      NodeDocument (.object members) (.fanout branches join)
  | dispatch {members entries : Members} {routes : List (String × Node)}
      {rules : List Rule}
      {fallback : Option String}
      (type : members.get? "type" = some (.string "orchestrator"))
      (routesAt : members.get? "sub_workflows" = some (.object entries))
      (documents : RouteDocuments entries routes) (notEmpty : routes ≠ [])
      (rulesAt : RulesAt members rules)
      (fallbackAt : OptionalText members "default" fallback)
      (routing : LawfulRouting (routes.map Prod.fst) rules fallback) :
      NodeDocument (.object members)
        (.dispatch (Sorted.ofList routes) rules fallback)

inductive NodeDocuments : List Value → List Node → Prop where
  | nil : NodeDocuments [] []
  | cons {value : Value} {node : Node} {values : List Value}
      {nodes : List Node} (first : NodeDocument value node)
      (rest : NodeDocuments values nodes) :
      NodeDocuments (value :: values) (node :: nodes)

inductive RouteDocuments :
    List (String × Value) → List (String × Node) → Prop where
  | nil : RouteDocuments [] []
  | cons {name : String} {value : Value} {node : Node}
      {entries : List (String × Value)} {routes : List (String × Node)}
      (identifier : isIdentifier name = true) (first : NodeDocument value node)
      (rest : RouteDocuments entries routes) :
      RouteDocuments ((name, value) :: entries) ((name, node) :: routes)

end

theorem RouteDocuments.map_fst
    {entries : List (String × Value)} {routes : List (String × Node)}
    (documents : RouteDocuments entries routes) :
    routes.map Prod.fst = entries.map Prod.fst := by
  induction entries generalizing routes with
  | nil =>
      cases documents
      rfl
  | cons entry entries induction =>
      cases documents with
      | cons _ _ rest => simp [induction rest]

end Document

end Workflow
