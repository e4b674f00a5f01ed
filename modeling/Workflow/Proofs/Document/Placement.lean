import Workflow.Document.SpecReader
import Workflow.Proofs.Document.Reading
import Workflow.Proofs.Limits.Visits
import Workflow.Proofs.Name.Sorted
import Workflow.Proofs.Report.Resolution

/-!
# Where issues stand

Readers build the paths of their issues as they go down a document.  Every
issue that is recorded stands at a value of the document, usable or not, and
every node of the tree that comes out stands at the object it was read from.
Both are shown together, reader by reader: `Checked.Ensures` says it of a
reading, given that the value being read stands at the path it is read with.
-/

namespace Workflow

/-- The issue stands at a value of the document, and was recorded by a
reader. -/
structure Located (document : Value) (issue : Issue) : Prop where
  stands : ∃ value, At document issue.path value
  noScope : issue.kind ≠ .scope
  noComplexity : issue.kind ≠ .complexity

namespace Checked

variable {α β : Type} {document : Value}

/-- Every issue of a reading stands in the document, and its value is as
expected. -/
structure Ensures
    (document : Value) (reading : Checked α) (expected : α → Prop) : Prop where
  located : ∀ issue ∈ reading.issues, Located document issue
  value : expected reading.value

theorem ensures_pure
    {expected : α → Prop} {value : α} (holds : expected value) :
    (pure value : Checked α).Ensures document expected :=
  ⟨nofun, holds⟩

theorem Ensures.bind
    {first : Checked α} {next : α → Checked β} {between : α → Prop}
    {expected : β → Prop} (ofFirst : first.Ensures document between)
    (ofNext : ∀ value,
      between value → (next value).Ensures document expected) :
    (first >>= next).Ensures document expected := by
  have rest := ofNext first.value ofFirst.value
  refine ⟨?_, rest.value⟩
  intro issue member
  rcases List.mem_append.mp member with before | behind
  · exact ofFirst.located issue before
  · exact rest.located issue behind

/-- A recording, and then a reading. -/
theorem Ensures.before
    {recording : Checked Unit} {next : Unit → Checked β} {expected : β → Prop}
    (recorded : recording.Ensures document fun _ => True)
    (ofNext : (next ()).Ensures document expected) :
    (recording >>= next).Ensures document expected :=
  recorded.bind fun _ _ => ofNext

/-- A recording under a condition, and then a reading. -/
theorem Ensures.ite_before
    {condition : Prop} [Decidable condition] {recording : Checked Unit}
    {next : Unit → Checked β} {expected : β → Prop}
    (recorded : condition → recording.Ensures document fun _ => True)
    (ofNext : (next ()).Ensures document expected) :
    (if condition then recording >>= next else next ()).Ensures document
      expected := by
  split
  · rename_i holds
    exact (recorded holds).before ofNext
  · exact ofNext

theorem Ensures.imp {reading : Checked α} {expected weaker : α → Prop}
    (ensures : reading.Ensures document expected)
    (follows : ∀ value, expected value → weaker value) :
    reading.Ensures document weaker :=
  ⟨ensures.located, follows _ ensures.value⟩

theorem ensures_record {finding : Finding} {path : Path} {value : Value}
    (stands : At document path value) :
    (finding.record path).Ensures document fun _ => True := by
  refine ⟨?_, trivial⟩
  intro issue member
  obtain rfl := List.mem_singleton.mp member
  refine ⟨⟨value, stands⟩, ?_, ?_⟩
  · cases finding <;> simp [Finding.issue, Finding.kind]
  · cases finding <;> simp [Finding.issue, Finding.kind]

theorem ensures_none {expected : α → Prop} :
    (pure none : Checked (Option α)).Ensures document
      fun result? => ∀ result ∈ result?, expected result := by
  refine ensures_pure ?_
  rintro _ ⟨⟩

/-- Nothing is read, and an issue says why. -/
theorem ensures_refusal {finding : Finding} {path : Path} {value : Value}
    {expected : α → Prop} (stands : At document path value) :
    (finding.record path >>= fun _ => (pure none : Checked (Option α))).Ensures
      document
      fun result? => ∀ result ∈ result?, expected result :=
  (ensures_record stands).before ensures_none

theorem ensures_some
    {expected : α → Prop} {value : α} (holds : expected value) :
    (pure (some value) : Checked (Option α)).Ensures document
      fun result? => ∀ result ∈ result?, expected result := by
  refine ensures_pure ?_
  rintro _ ⟨⟩
  exact holds

end Checked

namespace Document

theorem exists_of_mem_bind₂
    {α β γ : Type} {first : Option α} {second : Option β}
    {make : α → β → γ} {result : γ} (made : result ∈ (do
      let left ← first
      let right ← second
      return make left right)) :
    ∃ left ∈ first, ∃ right ∈ second, make left right = result := by
  obtain ⟨left, isLeft, made⟩ := Option.bind_eq_some_iff.mp made
  obtain ⟨right, isRight, made⟩ := Option.bind_eq_some_iff.mp made
  exact ⟨left, isLeft, right, isRight, Option.some.inj made⟩

theorem exists_of_mem_bind₃
    {α β γ δ : Type} {first : Option α} {second : Option β} {third : Option γ}
    {make : α → β → γ → δ} {result : δ} (made : result ∈ (do
      let left ← first
      let middle ← second
      let right ← third
      return make left middle right)) :
    ∃ left ∈ first, ∃ middle ∈ second, ∃ right ∈ third,
      make left middle right = result := by
  obtain ⟨left, isLeft, made⟩ := Option.bind_eq_some_iff.mp made
  exact ⟨left, isLeft, exists_of_mem_bind₂ made⟩

open Checked

variable {document : Value} {path : Path} {members : Members}

theorem ensures_members?
    {value : Value} {what : String} (stands : At document path value) :
    (members? value path what).Ensures document fun found =>
      ∀ members ∈ found, value = .object members := by
  unfold members?
  split
  · exact ensures_some rfl
  · exact ensures_refusal stands

theorem ensures_recordUnknownKeys
    {known keys : List String} (stands : At document path (.object members))
    (given : ∀ key ∈ keys, key ∈ members.keys) :
    (recordUnknownKeys known path keys).Ensures document fun _ => True := by
  induction keys with
  | nil => exact ensures_pure trivial
  | cons key rest induction =>
      obtain ⟨ofKey, ofRest⟩ := List.forall_mem_cons.mp given
      obtain ⟨value, found⟩ := Members.exists_get? ofKey
      rw [recordUnknownKeys]
      apply Ensures.ite_before
      · exact fun _ => ensures_record (stands.field found)
      · exact induction ofRest

theorem ensures_requiredText
    {key : String} (stands : At document path (.object members)) :
    (requiredText members key path).Ensures document fun text? =>
      ∀ text ∈ text?, members.get? key = some (.string text) := by
  unfold requiredText
  split
  · rename_i found
    exact ensures_some found
  · rename_i found
    exact ensures_refusal (stands.field found)
  · exact ensures_refusal stands

theorem ensures_optionalText
    {key : String} (stands : At document path (.object members)) :
    (optionalText members key path).Ensures document fun text? =>
      ∀ text ∈ text?, OptionalText members key text := by
  unfold optionalText
  split
  · rename_i missing
    exact ensures_some (.inl missing)
  · rename_i null
    exact ensures_some (.inr null)
  · rename_i found
    exact ensures_some found
  · rename_i found
    exact ensures_refusal (stands.field found)

theorem ensures_recordName
    {name what : String} {value : Value} (stands : At document path value) :
    (recordName name path what).Ensures document fun _ => True := by
  unfold recordName
  split
  · exact ensures_record stands
  · exact ensures_pure trivial

theorem ensures_recordDuplicate
    {name what : String} {earlier : List String} {value : Value}
    (stands : At document path value) :
    (recordDuplicate name earlier path what).Ensures document
      fun _ => True := by
  unfold recordDuplicate
  split
  · exact ensures_record stands
  · exact ensures_pure trivial

theorem ensures_recordCondition {condition : String} {value : Value}
    (stands : At document path value) :
    (recordCondition condition path).Ensures document fun _ => True := by
  unfold recordCondition
  split
  · exact ensures_pure trivial
  · exact ensures_record stands

/-- What the object of a node has as its type. -/
def typeOf : Node → String
  | .call _ => "tool_call"
  | .sequence _ => "sequential"
  | .branch _ _ _ => "conditional"
  | .fanout _ _ => "parallel"
  | .dispatch _ _ _ => "orchestrator"

/-- The object at a path is one that a node can be read from, its children left
aside. -/
def Matches (document : Value) (path : Path) (node : Node) : Prop :=
  ∃ members : Members, At document path (.object members) ∧
    members.get? "type" = some (.string (typeOf node)) ∧
    match node with
    | .call call => ParamsAt members call.params
    | .sequence steps =>
        ∃ items, members.get? "steps" = some (.array items) ∧
          items.length = steps.length
    | .branch condition _ _ =>
        members.get? "condition" = some (.string condition)
    | .fanout branches _ =>
        ∃ items, members.get? "branches" = some (.array items) ∧
          items.length = branches.length
    | .dispatch _ rules _ => RulesAt members rules

/-- Every node of a tree stands at its object. -/
def Stands (document : Value) (path : Path) (node : Node) : Prop :=
  ∀ depth, ∀ visit ∈ node.visits path depth,
    Matches document visit.path visit.node

theorem stands_call
    {tool? : Option String} {params? : Option Members}
    {output? : Option (Option String)} {node : Node}
    (stands : At document path (.object members))
    (type : members.get? "type" = some (.string "tool_call"))
    (isParams : ∀ params ∈ params?, ParamsAt members params)
    (made : node ∈ (do
      let params ← params?
      let output ← output?
      let tool ← tool?
      return Node.call ⟨tool, params, output⟩)) :
    Stands document path node := by
  obtain ⟨params, isGiven, output, _, tool, _, rfl⟩ := exists_of_mem_bind₃ made
  intro depth visit member
  obtain rfl := List.mem_singleton.mp member
  exact ⟨members, stands, type, isParams params isGiven⟩

theorem ensures_recordParam {name : String} {value other : Value}
    (stands : At document path other) :
    (recordParam name value path).Ensures document fun _ => True := by
  unfold recordParam
  apply (ensures_recordName stands).before
  split
  · split
    · exact ensures_record stands
    · exact ensures_pure trivial
  · exact ensures_record stands

theorem ensures_recordParams {params entries : Members}
    (stands : At document path (.object params))
    (given : ∀ entry ∈ entries, entry.1 ∈ params.keys) :
    (recordParams path entries).Ensures document fun _ => True := by
  induction entries with
  | nil => exact ensures_pure trivial
  | cons entry rest induction =>
      obtain ⟨name, value⟩ := entry
      obtain ⟨ofEntry, ofRest⟩ := List.forall_mem_cons.mp given
      obtain ⟨other, found⟩ := Members.exists_get? ofEntry
      exact (ensures_recordParam (stands.field found)).before
        (induction ofRest)

theorem ensures_readParams (stands : At document path (.object members)) :
    (readParams members path).Ensures document fun params? =>
      ∀ params ∈ params?, ParamsAt members params := by
  unfold readParams
  split
  · rename_i missing
    exact ensures_some (.inr ⟨rfl, .inl missing⟩)
  · rename_i null
    exact ensures_some (.inr ⟨rfl, .inr null⟩)
  · rename_i params found
    apply (ensures_recordParams (stands.field found) fun _ =>
        List.mem_map_of_mem).before
    exact ensures_some (.inl found)
  · rename_i found
    exact ensures_refusal (stands.field found)

theorem ensures_readCall (stands : At document path (.object members))
    (type : members.get? "type" = some (.string "tool_call")) :
    (readCall members path).Ensures document fun node? =>
      ∀ node ∈ node?, Stands document path node := by
  unfold readCall
  apply (ensures_recordUnknownKeys stands fun _ => id).before
  apply (ensures_requiredText stands).bind
  intro tool? isTool
  -- a name is looked at if there is one, and what follows is read either way
  cases tool?
  case' some tool =>
    apply (ensures_recordName (stands.field (isTool tool rfl))).before
  all_goals
    apply (ensures_readParams stands).bind
    intro params? isParams
    apply (ensures_optionalText stands).bind
    intro output? isOutput
    rcases output? with _ | _ | target
    case' some.some =>
      apply (ensures_recordName (stands.field (isOutput _ rfl))).before
    all_goals exact ensures_pure fun node made =>
      stands_call stands type isParams made

theorem ensures_readJoin (stands : At document path (.object members)) :
    (readJoin members path).Ensures document fun _ => True := by
  unfold readJoin
  apply (ensures_requiredText stands).bind
  intro text? isText
  cases text? with
  | none => exact ensures_pure trivial
  | some text =>
      dsimp only
      split
      · exact ensures_pure trivial
      · exact (ensures_record (stands.field (isText text rfl))).before
          (ensures_pure trivial)

/-- The items of an array from a position on. -/
theorem taken_of_drop
    {α : Type} {items rest : List α} {position : Nat} {item : α}
    (left : items.drop position = item :: rest) :
    items[position]? = some item ∧ items.drop (position + 1) = rest := by
  constructor
  · rw [← List.head?_drop, left]
    rfl
  · rw [← List.tail_drop, left]
    rfl

theorem ensures_readRule {known? : Option NameSet} {value : Value}
    (stands : At document path value) :
    (readRule known? value path).Ensures document fun rule? =>
      ∀ rule ∈ rule?, RuleDocument value rule := by
  unfold readRule
  apply (ensures_members? stands).bind
  intro found isObject
  cases found with
  | none => exact ensures_none
  | some members =>
      obtain rfl := isObject members rfl
      apply (ensures_recordUnknownKeys stands fun _ => id).before
      apply (ensures_requiredText stands).bind
      intro condition? isCondition
      have asked : ∀ condition ∈ condition?, (recordCondition condition
          (.field path "condition")).Ensures document fun _ => True :=
        fun condition given =>
          ensures_recordCondition (stands.field (isCondition condition given))
      have made : ∀ {target? : Option String},
          (∀ target ∈ target?, members.get? "target" = some (.string target)) →
          ∀ rule ∈ (do
            let condition ← condition?
            let target ← target?
            return Rule.mk condition target),
            RuleDocument (.object members) rule := by
        intro target? isTarget rule made
        obtain ⟨condition, isGiven, target, alsoGiven, rfl⟩ :=
          exists_of_mem_bind₂ made
        exact ⟨members, rfl, isCondition condition isGiven,
          isTarget target alsoGiven⟩
      cases condition?
      case' some condition => apply (asked condition rfl).before
      all_goals
        apply (ensures_requiredText stands).bind
        intro target? isTarget
        cases target?
        case' some target =>
          cases known?
          case' some known =>
            apply Ensures.ite_before fun _ =>
              ensures_record (stands.field (isTarget target rfl))
        all_goals exact ensures_pure (made isTarget)

theorem ensures_readRulesFrom
    {known? : Option NameSet} {items all : List Value} {position : Nat}
    (stands : At document path (.object members))
    (given : members.get? "rules" = some (.array all))
    (left : all.drop position = items) :
    (readRulesFrom known? path position items).Ensures document fun rules? =>
      ∀ rules ∈ rules?, items.Forall₂ RuleDocument rules := by
  induction items generalizing position with
  | nil =>
      exact ensures_some .nil
  | cons item rest induction =>
      obtain ⟨taken, later⟩ := taken_of_drop left
      apply (ensures_readRule (stands.item given taken)).bind
      intro rule? isRule
      apply (induction later).bind
      intro rules? areRules
      refine ensures_pure ?_
      intro rules made
      obtain ⟨rule, isFirst, others, areOthers, rfl⟩ :=
        exists_of_mem_bind₂ made
      exact .cons (isRule rule isFirst) (areRules others areOthers)

theorem ensures_readRules
    {known? : Option NameSet} (stands : At document path (.object members)) :
    (readRules known? members path).Ensures document fun rules? =>
      ∀ rules ∈ rules?, RulesAt members rules := by
  unfold readRules
  split
  · rename_i missing
    exact ensures_some (.inr ⟨rfl, .inl missing⟩)
  · rename_i null
    exact ensures_some (.inr ⟨rfl, .inr null⟩)
  · rename_i items found
    apply (ensures_readRulesFrom stands found rfl).imp
    intro rules? areRules rules given
    exact .inl ⟨items, found, areRules rules given⟩
  · rename_i found
    exact ensures_refusal (stands.field found)

theorem ensures_readFallback {known? : Option NameSet}
    (stands : At document path (.object members)) :
    (readFallback known? members path).Ensures document fun _ => True := by
  unfold readFallback
  apply (ensures_optionalText stands).bind
  intro fallback? isFallback
  rcases fallback? with _ | _ | target
  case' some.some =>
    cases known?
    case' some known =>
      apply Ensures.ite_before fun _ =>
        ensures_record (stands.field (isFallback _ rfl))
  all_goals exact ensures_pure trivial

theorem ensures_recordUnrouted {routed names : List String}
    (each : ∀ name ∈ names,
      ∃ value, At document (.field (.field path "sub_workflows") name) value) :
    (recordUnrouted routed path names).Ensures document fun _ => True := by
  induction names with
  | nil => exact ensures_pure trivial
  | cons name rest induction =>
      obtain ⟨⟨value, ofName⟩, ofRest⟩ := List.forall_mem_cons.mp each
      rw [recordUnrouted]
      apply Ensures.ite_before
      · exact fun _ => ensures_record ofName
      · exact induction ofRest

theorem ensures_recordRouting
    {rules? : Option (List Rule)} {fallback? : Option (Option String)}
    (stands : At document path (.object members)) :
    (recordRouting (subWorkflowNames members) path rules? fallback?).Ensures
      document
      fun _ => True := by
  have each : ∀ name ∈ (subWorkflowNames members).names,
      ∃ value,
        At document (.field (.field path "sub_workflows") name) value := by
    intro name member
    unfold subWorkflowNames at member
    split at member
    · rename_i routes found
      have isKey : name ∈ Members.keys routes := NameSet.mem_ofList.mp member
      obtain ⟨value, given⟩ := Members.exists_get? isKey
      exact ⟨value, (stands.field found).field given⟩
    · cases member
  unfold recordRouting
  split
  · apply Ensures.ite_before
    · exact fun _ => ensures_record stands
    · exact ensures_recordUnrouted each
  · exact ensures_pure trivial

/-- Every node of the routes stands at its object. -/
def StandsRoutes
    (document : Value) (path : Path) (routes : List (String × Node)) : Prop :=
  ∀ route ∈ routes, Stands document (.field path route.1) route.2

theorem mem_visitsRoutes
    {depth : Nat} {routes : List (String × Node)} {visit : Visit} :
    visit ∈ Node.visitsRoutes path depth routes ↔
      ∃ route ∈ routes,
        visit ∈ route.2.visits (.field path route.1) depth := by
  induction routes with
  | nil => simp [Node.visitsRoutes]
  | cons route rest induction => simp [Node.visitsRoutes, induction]

theorem stands_dispatch
    {routes : List (String × Node)} {rules : List Rule}
    {fallback : Option String} (stands : At document path (.object members))
    (type : members.get? "type" = some (.string "orchestrator"))
    (rulesAt : RulesAt members rules)
    (below : StandsRoutes document (.field path "sub_workflows") routes) :
    Stands document path
      (.dispatch (Sorted.ofList routes) rules fallback) := by
  intro depth visit member
  rw [Node.visits, List.mem_cons, mem_visitsRoutes] at member
  rcases member with rfl | ⟨route, isRoute, inside⟩
  · exact ⟨members, stands, type, rulesAt⟩
  · exact below route (Sorted.mem_of_mem_ofList isRoute) _ visit inside

theorem ensures_readDispatch
    {routes? : Option (List (String × Node))}
    (stands : At document path (.object members))
    (type : members.get? "type" = some (.string "orchestrator"))
    (below : ∀ routes ∈ routes?,
      StandsRoutes document (.field path "sub_workflows") routes) :
    (readDispatch routes? members path).Ensures document fun node? =>
      ∀ node ∈ node?, Stands document path node := by
  unfold readDispatch
  apply (ensures_readRules stands).bind
  intro rules? areRules
  apply (ensures_readFallback stands).bind
  intro fallback? _
  apply (ensures_recordRouting stands).before
  refine ensures_pure ?_
  intro node made
  obtain ⟨routes, areRoutes, rules, given, fallback, _, rfl⟩ :=
    exists_of_mem_bind₃ made
  exact stands_dispatch stands type (areRules rules given)
    (below routes areRoutes)

/-- Wherever the value stands, reading it as a tree keeps to the places of the
document. -/
def KeepsPlaces (document value : Value) : Prop :=
  ∀ path, At document path value →
    (readNode value path).Ensures document fun node? =>
    ∀ node ∈ node?, Stands document path node

/-- Every node of a list stands at its object, from a position on. -/
def StandsList (document : Value) (path : Path) (key : String) (position : Nat)
    (nodes : List Node) : Prop :=
  ∀ depth, ∀ visit ∈ Node.visitsList path key position depth nodes,
    Matches document visit.path visit.node

theorem standsList_nil {key : String} {position : Nat} :
    StandsList document path key position [] := by
  intro depth visit member
  cases member

theorem standsList_cons
    {key : String} {position : Nat} {node : Node} {nodes : List Node}
    (first : Stands document (path.item key position) node)
    (rest : StandsList document path key (position + 1) nodes) :
    StandsList document path key position (node :: nodes) := by
  intro depth visit member
  rcases List.mem_append.mp member with inFirst | inRest
  · exact first depth visit inFirst
  · exact rest depth visit inRest

theorem ensures_readNodesFrom
    {key : String} {items all : List Value} {position : Nat}
    (each : ∀ item ∈ items, KeepsPlaces document item)
    (stands : At document path (.object members))
    (given : members.get? key = some (.array all))
    (left : all.drop position = items) :
    (readNodesFrom path key position items).Ensures document fun nodes? =>
      ∀ nodes ∈ nodes?, items.length = nodes.length ∧
        StandsList document path key position nodes := by
  induction items generalizing position with
  | nil =>
      rw [readNodesFrom]
      exact ensures_some ⟨rfl, standsList_nil⟩
  | cons item rest induction =>
      obtain ⟨ofItem, ofRest⟩ := List.forall_mem_cons.mp each
      obtain ⟨taken, later⟩ := taken_of_drop left
      rw [readNodesFrom]
      apply (ofItem _ (stands.item given taken)).bind
      intro node? isNode
      apply (induction ofRest later).bind
      intro nodes? areNodes
      refine ensures_pure ?_
      intro nodes made
      obtain ⟨node, isFirst, others, areOthers, rfl⟩ :=
        exists_of_mem_bind₂ made
      obtain ⟨sameLength, standing⟩ := areNodes others areOthers
      exact ⟨by simp [sameLength],
        standsList_cons (isNode node isFirst) standing⟩

theorem ensures_readRoutesFrom
    {entries all : Members}
    (each : ∀ entry ∈ entries, KeepsPlaces document entry.2)
    (stands : At document path (.object all))
    (distinct : (all.map Prod.fst).Nodup)
    (given : ∀ entry ∈ entries, entry ∈ all) :
    (readRoutesFrom path entries).Ensures document fun routes? =>
      ∀ routes ∈ routes?, StandsRoutes document path routes := by
  induction entries with
  | nil =>
      rw [readRoutesFrom]
      exact ensures_some (List.forall_mem_nil _)
  | cons entry rest induction =>
      obtain ⟨name, value⟩ := entry
      obtain ⟨ofEntry, ofRest⟩ := List.forall_mem_cons.mp each
      obtain ⟨isEntry, areEntries⟩ := List.forall_mem_cons.mp given
      have standsEntry : At document (.field path name) value :=
        stands.field ((Members.get?_eq_some distinct).mpr isEntry)
      rw [readRoutesFrom]
      apply (ensures_recordName standsEntry).before
      apply (ofEntry _ standsEntry).bind
      intro node? isNode
      apply (induction ofRest areEntries).bind
      intro routes? areRoutes
      refine ensures_pure ?_
      intro routes made
      obtain ⟨node, isFirst, others, areOthers, rfl⟩ :=
        exists_of_mem_bind₂ made
      exact List.forall_mem_cons.mpr
        ⟨isNode node isFirst, areRoutes others areOthers⟩

section Members

variable (below : ∀ value : Value,
    sizeOf value < sizeOf members → KeepsPlaces document value)
  (stands : At document path (.object members))

include below stands

theorem ensures_readNodes {key : String} :
    (readNodes members key path).Ensures document fun nodes? =>
      ∀ nodes ∈ nodes?, (∃ items, members.get? key = some (.array items) ∧
        items.length = nodes.length) ∧
        StandsList document path key 0 nodes := by
  rw [readNodes]
  split
  · rename_i items found
    have each :=
      fun item member => below item (sizeOf_lt_of_array found item member)
    apply (ensures_readNodesFrom each stands found rfl).imp
    intro nodes? areNodes nodes given
    obtain ⟨sameLength, standing⟩ := areNodes nodes given
    exact ⟨⟨items, found, sameLength⟩, standing⟩
  · rename_i found
    exact ensures_refusal (stands.field found)
  · exact ensures_refusal stands

theorem ensures_readSequence
    (type : members.get? "type" = some (.string "sequential")) :
    (readSequence members path).Ensures document fun node? =>
      ∀ node ∈ node?, Stands document path node := by
  rw [readSequence]
  apply (ensures_recordUnknownKeys stands fun _ => id).before
  apply (ensures_readNodes below stands).bind
  intro steps? areSteps
  cases steps? with
  | none => exact ensures_none
  | some steps =>
      obtain ⟨⟨items, found, sameLength⟩, standing⟩ := areSteps steps rfl
      apply Ensures.ite_before
      · exact fun _ => ensures_record (stands.field found)
      · refine ensures_pure ?_
        rintro _ ⟨⟩ depth visit member
        rw [Node.visits, List.mem_cons] at member
        rcases member with rfl | inside
        · exact ⟨members, stands, type, items, found, sameLength⟩
        · exact standing _ visit inside

theorem ensures_readChild {key : String} :
    (readChild members key path).Ensures document fun node? =>
      ∀ node ∈ node?, Stands document (.field path key) node := by
  rw [readChild]
  split
  · rename_i value found
    exact below value (Members.sizeOf_get? found) _ (stands.field found)
  · exact ensures_refusal stands

theorem ensures_readOptionalChild {key : String} :
    (readOptionalChild members key path).Ensures document fun child? =>
      ∀ child ∈ child?, ∀ node ∈ child,
        Stands document (.field path key) node := by
  rw [readOptionalChild]
  split
  · exact ensures_some nofun
  · exact ensures_some nofun
  · rename_i value _ found
    apply (below value (Members.sizeOf_get? found) _ (stands.field found)).bind
    intro node? isNode
    refine ensures_pure ?_
    intro child made node isChild
    obtain ⟨other, given, rfl⟩ := Option.map_eq_some_iff.mp made
    cases isChild
    exact isNode _ given

theorem ensures_readBranch
    (type : members.get? "type" = some (.string "conditional")) :
    (readBranch members path).Ensures document fun node? =>
      ∀ node ∈ node?, Stands document path node := by
  rw [readBranch]
  apply (ensures_recordUnknownKeys stands fun _ => id).before
  apply (ensures_requiredText stands).bind
  intro condition? isCondition
  have made : ∀ {whenTrue? : Option Node} {otherwise? : Option (Option Node)},
      (∀ node ∈ whenTrue?, Stands document (.field path "if_true") node) →
      (∀ child ∈ otherwise?, ∀ node ∈ child,
        Stands document (.field path "if_false") node) →
      ∀ node ∈ (do
        let condition ← condition?
        let whenTrue ← whenTrue?
        let otherwise ← otherwise?
        return Node.branch condition whenTrue otherwise),
        Stands document path node := by
    intro whenTrue? otherwise? standsTrue standsFalse node made
    obtain ⟨condition, asked, whenTrue, isTrue, otherwise, isFalse, rfl⟩ :=
      exists_of_mem_bind₃ made
    intro depth visit member
    have atTrue := standsTrue whenTrue isTrue (depth + 1) visit
    cases otherwise with
    | none =>
        rw [Node.visits, List.mem_cons] at member
        rcases member with rfl | inTrue
        · exact ⟨members, stands, type, isCondition condition asked⟩
        · exact atTrue inTrue
    | some otherwise =>
        rw [Node.visits, List.mem_cons, List.mem_append] at member
        rcases member with rfl | inTrue | inFalse
        · exact ⟨members, stands, type, isCondition condition asked⟩
        · exact atTrue inTrue
        · exact standsFalse _ isFalse otherwise rfl (depth + 1) visit inFalse
  have asked : ∀ condition ∈ condition?, (recordCondition condition
      (.field path "condition")).Ensures document fun _ => True :=
    fun condition given =>
      ensures_recordCondition (stands.field (isCondition condition given))
  cases condition?
  case' some condition => apply (asked condition rfl).before
  all_goals
    apply (ensures_readChild below stands).bind
    intro whenTrue? standsTrue
    apply (ensures_readOptionalChild below stands).bind
    intro otherwise? standsFalse
    exact ensures_pure (made standsTrue standsFalse)

theorem ensures_readFanout
    (type : members.get? "type" = some (.string "parallel")) :
    (readFanout members path).Ensures document fun node? =>
      ∀ node ∈ node?, Stands document path node := by
  rw [readFanout]
  apply (ensures_recordUnknownKeys stands fun _ => id).before
  apply (ensures_readNodes below stands).bind
  intro branches? areBranches
  have made : ∀ {join? : Option JoinPolicy}, ∀ node ∈ (do
      let branches ← branches?
      let join ← join?
      return Node.fanout branches join), Stands document path node := by
    intro join? node made
    obtain ⟨branches, given, join, _, rfl⟩ := exists_of_mem_bind₂ made
    obtain ⟨⟨items, found, sameLength⟩, standing⟩ := areBranches branches given
    intro depth visit member
    rw [Node.visits, List.mem_cons] at member
    rcases member with rfl | inside
    · exact ⟨members, stands, type, items, found, sameLength⟩
    · exact standing _ visit inside
  cases branches?
  case' some branches =>
    obtain ⟨⟨items, found, _⟩, _⟩ := areBranches branches rfl
    apply Ensures.ite_before fun _ => ensures_record (stands.field found)
  all_goals
    apply (ensures_readJoin stands).bind
    intro join? _
    exact ensures_pure made

theorem ensures_readRoutes (addressable : document.isAddressable = true) :
    (readRoutes members path).Ensures document fun routes? =>
      ∀ routes ∈ routes?,
        StandsRoutes document (.field path "sub_workflows") routes := by
  rw [readRoutes]
  split
  · rename_i entries found
    have inside := stands.field found
    have each := fun entry member =>
      below entry.2 (sizeOf_lt_of_object found entry member)
    apply Ensures.ite_before
    · exact fun _ => ensures_record inside
    · exact ensures_readRoutesFrom each inside (inside.distinct addressable)
        fun _ => id
  · rename_i found
    exact ensures_refusal (stands.field found)
  · exact ensures_refusal stands

theorem ensures_readOrchestrator (addressable : document.isAddressable = true)
    (type : members.get? "type" = some (.string "orchestrator")) :
    (readOrchestrator members path).Ensures document fun node? =>
      ∀ node ∈ node?, Stands document path node := by
  rw [readOrchestrator]
  apply (ensures_recordUnknownKeys stands fun _ => id).before
  apply (ensures_readRoutes below stands addressable).bind
  intro routes? standing
  exact ensures_readDispatch stands type standing

end Members

theorem keepsPlaces
    (addressable : document.isAddressable = true) (value : Value) :
    KeepsPlaces document value := by
  cases value with
  | object members =>
      have below : ∀ value : Value,
          sizeOf value < sizeOf members → KeepsPlaces document value :=
        fun value _ => keepsPlaces addressable value
      intro path stands
      rw [readNode]
      split
      · rename_i type
        exact ensures_readCall stands type
      · rename_i type
        exact ensures_readSequence below stands type
      · rename_i type
        exact ensures_readBranch below stands type
      · rename_i type
        exact ensures_readFanout below stands type
      · rename_i type
        exact ensures_readOrchestrator below stands addressable type
      · rename_i found
        exact ensures_refusal (stands.field found)
      · rename_i found
        exact ensures_refusal (stands.field found)
      · exact ensures_refusal stands
  | _ =>
      intro path stands
      rw [readNode]
      · exact ensures_refusal stands
      · rintro members ⟨⟩
termination_by sizeOf value

theorem ensures_readType (stands : At document path (.object members)) :
    (readType members path).Ensures document fun _ => True := by
  unfold readType
  apply (ensures_requiredText stands).bind
  intro text? isText
  cases text? with
  | none => exact ensures_pure trivial
  | some text =>
      dsimp only
      split
      · exact ensures_pure trivial
      · exact (ensures_record (stands.field (isText text rfl))).before
          (ensures_pure trivial)

theorem ensures_readInput {earlier : List String} {value : Value}
    (stands : At document path value) :
    (readInput earlier value path).Ensures document fun _ => True := by
  unfold readInput
  apply (ensures_members? stands).bind
  intro found isObject
  cases found with
  | none => exact ensures_pure trivial
  | some members =>
      obtain rfl := isObject members rfl
      apply Ensures.ite_before
      · intro flagged
        obtain ⟨flag, given⟩ := Option.isSome_iff_exists.mp flagged
        exact ensures_record (stands.field given)
      apply (ensures_recordUnknownKeys stands fun _ => id).before
      apply (ensures_requiredText stands).bind
      intro name? isName
      cases name? with
      | none => exact ensures_pure trivial
      | some name =>
          have standsName := stands.field (isName name rfl)
          apply (ensures_recordName standsName).before
          apply (ensures_recordDuplicate standsName).before
          apply (ensures_readType stands).bind
          intro type? _
          apply (ensures_optionalText stands).bind
          intro description? _
          apply Ensures.ite_before
          · intro isSample
            obtain ⟨_, sampled⟩ := Bool.and_eq_true_iff.mp isSample
            obtain ⟨sample, given⟩ := Option.isSome_iff_exists.mp sampled
            have found : members.get? "example" = some sample := by
              simp only [sample?] at given
              split at given
              · cases given
              · exact given
            exact ensures_record (stands.field found)
          · exact ensures_pure trivial

theorem ensures_readOutput {earlier : List String} {value : Value}
    (stands : At document path value) :
    (readOutput earlier value path).Ensures document fun _ => True := by
  unfold readOutput
  apply (ensures_members? stands).bind
  intro found isObject
  cases found with
  | none => exact ensures_pure trivial
  | some members =>
      obtain rfl := isObject members rfl
      apply (ensures_recordUnknownKeys stands fun _ => id).before
      apply (ensures_requiredText stands).bind
      intro name? isName
      cases name? with
      | none => exact ensures_pure trivial
      | some name =>
          have standsName := stands.field (isName name rfl)
          apply (ensures_recordName standsName).before
          apply (ensures_recordDuplicate standsName).before
          apply (ensures_readType stands).bind
          intro type? _
          cases type? with
          | none => exact ensures_pure trivial
          | some type =>
              apply (ensures_optionalText stands).bind
              intro description? _
              exact ensures_pure trivial

theorem ensures_readInputsFrom
    {items all : List Value} {position : Nat} {earlier : List String}
    (stands : At document .document (.object members))
    (given : members.get? "inputs" = some (.array all))
    (left : all.drop position = items) :
    (readInputsFrom position earlier items).Ensures document
      fun _ => True := by
  induction items generalizing position earlier with
  | nil => exact ensures_pure trivial
  | cons item rest induction =>
      obtain ⟨taken, later⟩ := taken_of_drop left
      apply (ensures_readInput (stands.item given taken)).bind
      intro input? _
      apply (induction later).bind
      intro inputs? _
      exact ensures_pure trivial

theorem ensures_readOutputsFrom
    {items all : List Value} {position : Nat} {earlier : List String}
    (stands : At document .document (.object members))
    (given : members.get? "outputs" = some (.array all))
    (left : all.drop position = items) :
    (readOutputsFrom position earlier items).Ensures document
      fun _ => True := by
  induction items generalizing position earlier with
  | nil => exact ensures_pure trivial
  | cons item rest induction =>
      obtain ⟨taken, later⟩ := taken_of_drop left
      apply (ensures_readOutput (stands.item given taken)).bind
      intro output _
      apply (induction later).bind
      intro outputs _
      exact ensures_pure trivial

section Root

variable (stands : At document .document (.object members))

include stands

theorem ensures_readInputs :
    (readInputs members).Ensures document fun _ => True := by
  unfold readInputs
  split
  · rename_i found
    exact ensures_readInputsFrom stands found rfl
  · rename_i found
    exact (ensures_record (stands.field found)).before (ensures_pure trivial)
  · exact (ensures_record stands).before (ensures_pure trivial)

theorem ensures_readOutputs :
    (readOutputs members).Ensures document fun _ => True := by
  unfold readOutputs
  split
  · exact ensures_pure trivial
  · exact ensures_pure trivial
  · rename_i found
    exact ensures_readOutputsFrom stands found rfl
  · rename_i found
    exact (ensures_record (stands.field found)).before (ensures_pure trivial)

theorem ensures_readMetadata :
    (readMetadata members).Ensures document fun _ => True := by
  unfold readMetadata
  split
  · exact ensures_pure trivial
  · exact ensures_pure trivial
  · exact ensures_pure trivial
  · rename_i found
    exact (ensures_record (stands.field found)).before (ensures_pure trivial)

theorem ensures_readName :
    (readName members).Ensures document fun _ => True := by
  unfold readName
  apply (ensures_requiredText stands).bind
  intro name? isName
  cases name? with
  | none => exact ensures_pure trivial
  | some name =>
      exact (ensures_recordName (stands.field (isName name rfl))).before
        (ensures_pure trivial)

theorem ensures_readVersion :
    (readVersion members).Ensures document fun _ => True := by
  unfold readVersion
  apply (ensures_requiredText stands).bind
  intro version? isVersion
  cases version? with
  | none => exact ensures_pure trivial
  | some version =>
      apply Ensures.ite_before
      · exact fun _ => ensures_record (stands.field (isVersion version rfl))
      · exact ensures_pure trivial

end Root

/-- Every issue that reading records stands in the document, and so does the
tree. -/
theorem ensures_readSpec (addressable : document.isAddressable = true) :
    (readSpec document).Ensures document fun spec? =>
      ∀ spec ∈ spec?,
        Stands document (.field .document "workflow") spec.workflow := by
  unfold readSpec
  apply (ensures_members? .root).bind
  intro found isObject
  cases found with
  | none => exact ensures_none
  | some members =>
      have stands : At document .document (.object members) :=
        isObject members rfl ▸ .root
      have below : ∀ value : Value,
          sizeOf value < sizeOf members → KeepsPlaces document value :=
        fun value _ => keepsPlaces addressable value
      apply (ensures_recordUnknownKeys stands fun _ => id).before
      apply (ensures_readName stands).bind
      intro name _
      apply (ensures_optionalText stands).bind
      intro description? _
      apply (ensures_readVersion stands).bind
      intro version _
      apply (ensures_readInputs stands).bind
      intro inputs? _
      apply (ensures_readOutputs stands).bind
      intro outputs _
      apply (ensures_readMetadata stands).bind
      intro metadata _
      apply (ensures_readChild below stands).bind
      intro workflow? standing
      refine ensures_pure ?_
      intro spec made
      obtain ⟨inputs, _, workflow, given, rfl⟩ := exists_of_mem_bind₂ made
      exact standing workflow given

end Document

end Workflow
