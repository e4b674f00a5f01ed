import Workflow.Proofs.Document.Acceptance
import Workflow.Proofs.Document.Reading
import Workflow.Proofs.Scope.SitePaths

/-!
# Documents of usable shape

Reading drops a tree for its shape alone.  `NodeShape value node` is what is
left of the schema when nothing is asked about names, conditions, targets or
the number of steps, branches and routes; `Checked.Keeps` says of a reader that
it keeps exactly what has a shape, and that what it drops is reported as
misshapen.
-/

namespace Workflow

/-- Whether a finding is about a value of the wrong shape, and not about what a
value of the right shape holds. -/
def Finding.isMisshapen : Finding → Bool
  | .notAnObject .. => true
  | .missingKey .. => true
  | .notAString .. => true
  | .notAnArray .. => true
  | .notANodeArray .. => true
  | .notAnObjectAt .. => true
  | .nodeTypeNotAString .. => true
  | .missingNodeType => true
  | .unknownNodeType .. => true
  | .unknownJoin .. => true
  | _ => false

theorem Finding.severity_of_isMisshapen
    (finding : Finding) (isMisshapen : finding.isMisshapen = true) :
    finding.severity = .error := by
  revert isMisshapen
  cases finding <;> simp [Finding.isMisshapen, severity]

/-- Something at a path or below it is reported as misshapen. -/
def Misshapen (base : Path) (issues : List Issue) : Prop :=
  ∃ finding : Finding, ∃ path : Path,
    finding.isMisshapen = true ∧ base.Below path ∧ finding.issue path ∈ issues

theorem Path.below_of_item (base : Path) (key : String) (position : Nat) :
    base.Below (base.item key position) :=
  (Below.self.field key).index position

namespace Misshapen

variable {base path : Path}

theorem append {first second : List Issue} :
    Misshapen base (first ++ second) ↔
      Misshapen base first ∨ Misshapen base second := by
  simp only [Misshapen, List.mem_append, and_or_left, exists_or]

theorem above
    {issues : List Issue} (below : base.Below path)
    (misshapen : Misshapen path issues) :
    Misshapen base issues := by
  obtain ⟨finding, place, isMisshapen, under, member⟩ := misshapen
  exact ⟨finding, place, isMisshapen, below.trans under, member⟩

end Misshapen

namespace Checked

variable {α β γ : Type}

/-- The reading keeps exactly what has a shape, and what it drops is reported
as misshapen. -/
structure Keeps
    (reading : Checked (Option α)) (base : Path) (shape : α → Prop) :
    Prop where
  kept : ∀ result, reading.value = some result ↔ shape result
  lost : reading.value = none → Misshapen base reading.issues

namespace Keeps

variable {reading : Checked (Option α)} {base path : Path} {shape : α → Prop}

theorem of_pure {result : α} (only : ∀ other, shape other ↔ other = result) :
    (pure (some result) : Checked (Option α)).Keeps base shape where
  kept other := by
    rw [only, value_pure, Option.some_inj]
    exact eq_comm
  lost isNone := by cases isNone

theorem of_record
    {finding : Finding} (isMisshapen : finding.isMisshapen = true)
    (below : base.Below path) (none : ∀ result, ¬shape result) :
    (do finding.record path; return Option.none : Checked (Option α)).Keeps
      base shape where
  kept result := by simp [none result]
  lost _ :=
    ⟨finding, path, isMisshapen, below,
      List.mem_append_left _ (List.mem_singleton.mpr rfl)⟩

/-- What stands in front of a reading and comes to no part of it. -/
theorem after
    {first : Checked β} {next : β → Checked (Option α)}
    (keeps : (next first.value).Keeps base shape) :
    (first >>= next).Keeps base shape where
  kept := keeps.kept
  lost isNone := Misshapen.append.mpr (.inr (keeps.lost isNone))

theorem afterIf {condition : Prop} [Decidable condition] {first : Checked Unit}
    (keeps : reading.Keeps base shape) :
    (if condition then (do first; reading) else reading).Keeps base shape := by
  split
  · exact keeps.after
  · exact keeps

/-- A part that is kept goes into what is read next; without it nothing is
kept. -/
theorem bind
    {next : Option α → Checked (Option β)} {whole : α → β → Prop}
    (keeps : reading.Keeps base shape)
    (whenKept : ∀ part,
      shape part → (next (some part)).Keeps base (whole part))
    (whenLost : (next none).value = none) :
    (reading >>= next).Keeps base fun result => ∃ part,
    shape part ∧ whole part result := by
  cases read : reading.value with
  | none =>
      have unshaped : ∀ part, ¬shape part := by
        intro part shaped
        have found := (keeps.kept part).mpr shaped
        rw [read] at found
        cases found
      constructor
      · intro result
        simp [read, whenLost, unshaped]
      · intro _
        exact Misshapen.append.mpr (.inl (keeps.lost read))
  | some part =>
      have shaped : shape part := (keeps.kept part).mp read
      have rest := whenKept part shaped
      constructor
      · intro result
        rw [value_bind, read, rest.kept]
        constructor
        · exact fun holds => ⟨part, shaped, holds⟩
        · rintro ⟨other, otherShaped, holds⟩
          have same := (keeps.kept other).mpr otherShaped
          rw [read, Option.some_inj] at same
          exact same ▸ holds
      · intro isNone
        rw [value_bind, read] at isNone
        rw [issues_bind, read]
        exact Misshapen.append.mpr (.inr (rest.lost isNone))

theorem above (keeps : reading.Keeps path shape) (below : base.Below path) :
    reading.Keeps base shape where
  kept := keeps.kept
  lost isNone := (keeps.lost isNone).above below

theorem congr
    {other : α → Prop} (keeps : reading.Keeps base shape)
    (same : ∀ result, other result ↔ shape result) :
    reading.Keeps base other where
  kept result := (keeps.kept result).trans (same result).symm
  lost := keeps.lost

end Keeps

end Checked

namespace Document

mutual

/-- The value has the shape of a tree, whatever its names, conditions and
targets are. -/
inductive NodeShape : Value → Node → Prop where
  | call {members params : Members} {tool : String} {output : Option String}
      (type : members.get? "type" = some (.string "tool_call"))
      (toolAt : members.get? "tool" = some (.string tool))
      (paramsAt : ParamsAt members params)
      (outputAt : OptionalText members "output" output) :
      NodeShape (.object members) (.call ⟨tool, params, output⟩)
  | sequence {members : Members} {items : List Value} {steps : List Node}
      (type : members.get? "type" = some (.string "sequential"))
      (stepsAt : members.get? "steps" = some (.array items))
      (shapes : NodeShapes items steps) :
      NodeShape (.object members) (.sequence steps)
  | branch {members : Members} {condition : String} {value : Value}
      {whenTrue : Node}
      (type : members.get? "type" = some (.string "conditional"))
      (conditionAt : members.get? "condition" = some (.string condition))
      (trueAt : members.get? "if_true" = some value)
      (shape : NodeShape value whenTrue)
      (falseAt : members.get? "if_false" = none ∨
        members.get? "if_false" = some .null) :
      NodeShape (.object members) (.branch condition whenTrue none)
  | branchElse {members : Members} {condition : String} {value other : Value}
      {whenTrue otherwise : Node}
      (type : members.get? "type" = some (.string "conditional"))
      (conditionAt : members.get? "condition" = some (.string condition))
      (trueAt : members.get? "if_true" = some value)
      (shape : NodeShape value whenTrue)
      (falseAt : members.get? "if_false" = some other)
      (otherShape : NodeShape other otherwise) :
      NodeShape (.object members) (.branch condition whenTrue (some otherwise))
  | fanout {members : Members} {items : List Value} {branches : List Node}
      {join : JoinPolicy}
      (type : members.get? "type" = some (.string "parallel"))
      (branchesAt : members.get? "branches" = some (.array items))
      (shapes : NodeShapes items branches)
      (joinAt : members.get? "join" = some (.string join.text)) :
      NodeShape (.object members) (.fanout branches join)
  | dispatch {members entries : Members} {routes : List (String × Node)}
      {rules : List Rule}
      {fallback : Option String}
      (type : members.get? "type" = some (.string "orchestrator"))
      (routesAt : members.get? "sub_workflows" = some (.object entries))
      (shapes : RouteShapes entries routes) (rulesAt : RulesAt members rules)
      (fallbackAt : OptionalText members "default" fallback) :
      NodeShape (.object members)
        (.dispatch (Sorted.ofList routes) rules fallback)

inductive NodeShapes : List Value → List Node → Prop where
  | nil : NodeShapes [] []
  | cons {value : Value} {node : Node} {values : List Value}
      {nodes : List Node} (first : NodeShape value node)
      (rest : NodeShapes values nodes) :
      NodeShapes (value :: values) (node :: nodes)

inductive RouteShapes :
    List (String × Value) → List (String × Node) → Prop where
  | nil : RouteShapes [] []
  | cons {name : String} {value : Value} {node : Node}
      {entries : List (String × Value)} {routes : List (String × Node)}
      (first : NodeShape value node) (rest : RouteShapes entries routes) :
      RouteShapes ((name, value) :: entries) ((name, node) :: routes)

end

/-- An input, as far as its shape goes: an object with a name. -/
def InputShape (value : Value) (name : String) : Prop :=
  ∃ members : Members,
    value = .object members ∧ members.get? "name" = some (.string name)

/-- The document has the shape of inputs with these names and of this tree. -/
def SpecShape (document : Value) (names : List String) (workflow : Node) :
    Prop :=
  ∃ (members : Members) (items : List Value) (value : Value),
    document = .object members ∧
    members.get? "inputs" = some (.array items) ∧
    items.Forall₂ InputShape names ∧
    members.get? "workflow" = some value ∧ NodeShape value workflow

/-- How the kind of a node is written in documents. -/
def typeText : Node → String
  | .call .. => "tool_call"
  | .sequence .. => "sequential"
  | .branch .. => "conditional"
  | .fanout .. => "parallel"
  | .dispatch .. => "orchestrator"

theorem NodeShape.type {members : Members} {node : Node}
    (shape : NodeShape (.object members) node) :
    members.get? "type" = some (.string (typeText node)) := by
  cases shape <;> assumption

theorem not_nodeShape_null (node : Node) : ¬NodeShape .null node := by
  rintro ⟨⟩

variable {members : Members} {key : String} {path : Path}

theorem keeps_members? {value : Value} {what : String} :
    (members? value path what).Keeps path (value = .object ·) := by
  cases value with
  | object members => exact .of_pure fun other => by simp [eq_comm]
  | _ => exact .of_record rfl .self fun _ => by simp

theorem keeps_requiredText :
    (requiredText members key path).Keeps path fun text =>
      members.get? key = some (.string text) := by
  unfold requiredText
  cases members.get? key with
  | none => exact .of_record rfl .self fun _ => by simp
  | some value =>
      cases value with
      | string text => exact .of_pure fun other => by simp [eq_comm]
      | _ => exact .of_record rfl (.field key .self) fun _ => by simp

theorem keeps_optionalText :
    (optionalText members key path).Keeps path (OptionalText members key) := by
  unfold optionalText OptionalText
  cases members.get? key with
  | none => exact .of_pure fun other => by cases other <;> simp
  | some value =>
      cases value with
      | null => exact .of_pure fun other => by cases other <;> simp
      | string text =>
          exact .of_pure fun other => by cases other <;> simp [eq_comm]
      | _ =>
          exact .of_record rfl (.field key .self) fun other => by
            cases other <;> simp

theorem keeps_readParams :
    (readParams members path).Keeps path (ParamsAt members) := by
  unfold readParams ParamsAt
  cases members.get? "params" with
  | none => exact .of_pure fun other => by simp
  | some value =>
      cases value with
      | null => exact .of_pure fun other => by simp
      | object params =>
          refine ⟨fun result => by simp, ?_⟩
          rintro ⟨⟩
      | _ => exact .of_record rfl (.field _ .self) fun _ => by simp

theorem keeps_readJoin :
    (readJoin members path).Keeps path fun join =>
      members.get? "join" = some (.string join.text) := by
  have nested : (readJoin members path).Keeps path fun join =>
      ∃ text,
        members.get? "join" = some (.string text) ∧ text = join.text := by
    unfold readJoin
    refine keeps_requiredText.bind ?_ rfl
    intro text _
    cases known : JoinPolicy.ofText? text with
    | none =>
        simp only [known]
        refine .of_record rfl (.field _ .self) fun join same => ?_
        rw [JoinPolicy.ofText?_eq_some.mpr same] at known
        cases known
    | some join =>
        simp only [known]
        refine .of_pure fun other => ?_
        rw [← JoinPolicy.ofText?_eq_some, known, Option.some_inj]
        exact eq_comm
  exact nested.congr fun join => by simp

theorem keeps_readRule {known? : Option NameSet} {value : Value} :
    (readRule known? value path).Keeps path (RuleDocument value) := by
  have nested :
      (readRule known? value path).Keeps path fun rule => ∃ members : Members,
      value = .object members ∧
      ∃ condition, members.get? "condition" = some (.string condition) ∧
        ∃ target, members.get? "target" = some (.string target) ∧
          rule = ⟨condition, target⟩ := by
    unfold readRule
    refine keeps_members?.bind
      (fun members _ => .after (keeps_requiredText.bind ?_ ?_)) rfl
    · intro condition _
      refine .after (keeps_requiredText.bind ?_ rfl)
      intro target _
      cases known? with
      | none => exact .of_pure fun _ => Iff.rfl
      | some known => exact .afterIf (.of_pure fun _ => Iff.rfl)
    · simp only [Checked.value_bind]
      repeat' split
      all_goals rfl
  refine nested.congr fun rule => ⟨?_, ?_⟩
  · rintro ⟨members, rfl, conditionAt, targetAt⟩
    exact ⟨members, rfl, _, conditionAt, _, targetAt, rfl⟩
  · rintro ⟨members, rfl, _, conditionAt, _, targetAt, rfl⟩
    exact ⟨members, rfl, conditionAt, targetAt⟩

theorem keeps_readRulesFrom
    {known? : Option NameSet} {position : Nat} {items : List Value} :
    (readRulesFrom known? path position items).Keeps path
      (items.Forall₂ RuleDocument) := by
  induction items generalizing position with
  | nil => exact .of_pure fun rules => List.forall₂_nil_left_iff
  | cons item items induction =>
      have nested :
          (readRulesFrom known? path position (item :: items)).Keeps path
            fun rules =>
          ∃ rule, RuleDocument item rule ∧
            ∃ others, items.Forall₂ RuleDocument others ∧
            rules = rule :: others := by
        rw [readRulesFrom]
        refine (keeps_readRule.above
            (path.below_of_item "rules" position)).bind ?_ rfl
        intro rule _
        refine induction.bind ?_ rfl
        intro others _
        exact .of_pure fun _ => Iff.rfl
      refine nested.congr fun rules => ?_
      rw [List.forall₂_cons_left_iff]
      constructor
      · rintro ⟨rule, others, first, rest, rfl⟩
        exact ⟨rule, first, others, rest, rfl⟩
      · rintro ⟨rule, first, others, rest, rfl⟩
        exact ⟨rule, others, first, rest, rfl⟩

theorem keeps_readRules {known? : Option NameSet} :
    (readRules known? members path).Keeps path (RulesAt members) := by
  unfold readRules RulesAt
  cases members.get? "rules" with
  | none => exact .of_pure fun other => by simp
  | some value =>
      cases value with
      | null => exact .of_pure fun other => by simp
      | array items => exact keeps_readRulesFrom.congr fun rules => by simp
      | _ => exact .of_record rfl (.field _ .self) fun _ => by simp

theorem keeps_readFallback {known? : Option NameSet} :
    (readFallback known? members path).Keeps path
      (OptionalText members "default") := by
  have same : (readFallback known? members path).value =
      (optionalText members "default" path).value := by
    unfold readFallback
    rw [Checked.value_bind]
    repeat' split
    all_goals rfl
  refine ⟨fun fallback => ?_, fun isNone => ?_⟩
  · rw [same, keeps_optionalText.kept]
  · rw [same] at isNone
    exact Misshapen.append.mpr (.inl (keeps_optionalText.lost isNone))

theorem keeps_readCall :
    (readCall members path).Keeps path fun node => ∃ tool,
      members.get? "tool" = some (.string tool) ∧
      ∃ params, ParamsAt members params ∧
        ∃ output, OptionalText members "output" output ∧
          node = .call ⟨tool, params, output⟩ := by
  unfold readCall
  refine .after (keeps_requiredText.bind ?_ ?_)
  · intro tool _
    refine .after (keeps_readParams.bind ?_ ?_)
    · intro params _
      refine keeps_optionalText.bind ?_ rfl
      intro output _
      cases output with
      | none => exact .of_pure fun _ => Iff.rfl
      | some target => exact .after (.of_pure fun _ => Iff.rfl)
    · simp only [Checked.value_bind]
      split <;> rfl
  · simp only [Checked.value_bind]
    split <;> simp

theorem keeps_readDispatch {routes : List (String × Node)} :
    (readDispatch (some routes) members path).Keeps path fun node =>
      ∃ rules, RulesAt members rules ∧
        ∃ fallback, OptionalText members "default" fallback ∧
        node = .dispatch (Sorted.ofList routes) rules fallback := by
  unfold readDispatch
  refine keeps_readRules.bind ?_ rfl
  intro rules _
  refine keeps_readFallback.bind ?_ rfl
  intro fallback _
  exact .after (.of_pure fun _ => Iff.rfl)

/-- Reading a value as a tree goes by its shape, wherever the value stands. -/
def ReadsByShape (value : Value) : Prop :=
  ∀ path : Path, (readNode value path).Keeps path (NodeShape value)

theorem keeps_readNodesFrom {items : List Value} {position : Nat}
    (each : ∀ item ∈ items, ReadsByShape item) :
    (readNodesFrom path key position items).Keeps path (NodeShapes items) := by
  induction items generalizing position with
  | nil =>
      rw [readNodesFrom]
      refine .of_pure fun nodes => ⟨?_, ?_⟩
      · rintro ⟨⟩
        rfl
      · rintro rfl
        exact .nil
  | cons item items induction =>
      obtain ⟨here, others⟩ := List.forall_mem_cons.mp each
      have nested :
          (readNodesFrom path key position (item :: items)).Keeps path
            fun nodes =>
          ∃ node, NodeShape item node ∧
            ∃ rest, NodeShapes items rest ∧ nodes = node :: rest := by
        rw [readNodesFrom]
        refine ((here _).above (path.below_of_item key position)).bind ?_ rfl
        intro node _
        refine (induction others).bind ?_ rfl
        intro rest _
        exact .of_pure fun _ => Iff.rfl
      refine nested.congr fun nodes => ⟨?_, ?_⟩
      · rintro (_ | ⟨first, rest⟩)
        exact ⟨_, first, _, rest, rfl⟩
      · rintro ⟨node, first, rest, shapes, rfl⟩
        exact .cons first shapes

theorem keeps_readRoutesFrom {entries : List (String × Value)}
    (each : ∀ entry ∈ entries, ReadsByShape entry.2) :
    (readRoutesFrom path entries).Keeps path (RouteShapes entries) := by
  induction entries with
  | nil =>
      rw [readRoutesFrom]
      refine .of_pure fun routes => ⟨?_, ?_⟩
      · rintro ⟨⟩
        rfl
      · rintro rfl
        exact .nil
  | cons entry entries induction =>
      obtain ⟨name, value⟩ := entry
      obtain ⟨here, others⟩ := List.forall_mem_cons.mp each
      have nested :
          (readRoutesFrom path ((name, value) :: entries)).Keeps path
            fun routes =>
          ∃ node, NodeShape value node ∧ ∃ rest, RouteShapes entries rest ∧
            routes = (name, node) :: rest := by
        rw [readRoutesFrom]
        refine .after (((here _).above (.field name .self)).bind ?_ rfl)
        intro node _
        refine (induction others).bind ?_ rfl
        intro rest _
        exact .of_pure fun _ => Iff.rfl
      refine nested.congr fun routes => ⟨?_, ?_⟩
      · rintro (_ | ⟨first, rest⟩)
        exact ⟨_, first, _, rest, rfl⟩
      · rintro ⟨node, first, rest, shapes, rfl⟩
        exact .cons first shapes

/-- A child of some shape, or none when it is absent or null. -/
def OptionalShape (members : Members) (key : String) : Option Node → Prop
  | some node => ∃ value, members.get? key = some value ∧ NodeShape value node
  | none => members.get? key = none ∨ members.get? key = some .null

section Members

variable (below : ∀ value : Value,
    sizeOf value < sizeOf members → ReadsByShape value)

include below

theorem keeps_readNodes :
    (readNodes members key path).Keeps path fun nodes =>
      ∃ items,
        members.get? key = some (.array items) ∧ NodeShapes items nodes := by
  rw [readNodes]
  split
  · rename_i items found
    have each :=
      fun item member => below item (sizeOf_lt_of_array found item member)
    exact (keeps_readNodesFrom each).congr fun nodes => by simp [found]
  · rename_i other noArray found
    refine .of_record rfl (.field key .self) ?_
    rintro nodes ⟨items, isArray, _⟩
    rw [found, Option.some_inj] at isArray
    exact noArray items isArray
  · rename_i found
    exact .of_record rfl .self fun nodes => by simp [found]

theorem keeps_readSequence :
    (readSequence members path).Keeps path fun node =>
      ∃ steps,
        (∃ items, members.get? "steps" = some (.array items) ∧
          NodeShapes items steps) ∧
        node = .sequence steps := by
  rw [readSequence]
  refine .after ((keeps_readNodes below).bind ?_ rfl)
  intro steps _
  exact .afterIf (.of_pure fun _ => Iff.rfl)

theorem keeps_readChild :
    (readChild members key path).Keeps path fun node =>
      ∃ value, members.get? key = some value ∧ NodeShape value node := by
  rw [readChild]
  split
  · rename_i value found
    have here := below value (Members.sizeOf_get? found) (.field path key)
    exact (here.above (.field key .self)).congr fun node => by simp [found]
  · rename_i found
    exact .of_record rfl .self fun node => by simp [found]

theorem keeps_readOptionalChild :
    (readOptionalChild members key path).Keeps path
      (OptionalShape members key) := by
  rw [readOptionalChild]
  split
  · rename_i found
    exact .of_pure fun child => by cases child <;> simp [OptionalShape, found]
  · rename_i found
    refine .of_pure fun child => ?_
    cases child with
    | none => simp [OptionalShape, found]
    | some node => simp [OptionalShape, found, not_nodeShape_null]
  · rename_i value notNull found
    have different : value ≠ .null := notNull
    have here :=
      (below value (Members.sizeOf_get? found) (.field path key)).above
        (.field key .self)
    have nested : (do
        let node? ← readNode value (.field path key)
        return node?.map some : Checked (Option (Option Node))).Keeps path
          fun child =>
        ∃ node, NodeShape value node ∧ child = some node :=
      here.bind (fun node _ => .of_pure fun _ => Iff.rfl) rfl
    refine nested.congr fun child => ?_
    cases child with
    | none => simp [OptionalShape, found, different]
    | some node => simp [OptionalShape, found]

theorem keeps_readBranch :
    (readBranch members path).Keeps path fun node =>
      ∃ condition, members.get? "condition" = some (.string condition) ∧
        ∃ whenTrue,
          (∃ value,
            members.get? "if_true" = some value ∧ NodeShape value whenTrue) ∧
          ∃ otherwise, OptionalShape members "if_false" otherwise ∧
            node = .branch condition whenTrue otherwise := by
  rw [readBranch]
  refine .after (keeps_requiredText.bind ?_ rfl)
  intro condition _
  refine .after ((keeps_readChild below).bind ?_ rfl)
  intro whenTrue _
  refine (keeps_readOptionalChild below).bind ?_ rfl
  intro otherwise _
  exact .of_pure fun _ => Iff.rfl

theorem keeps_readFanout :
    (readFanout members path).Keeps path fun node =>
      ∃ branches,
        (∃ items, members.get? "branches" = some (.array items) ∧
          NodeShapes items branches) ∧
        ∃ join, members.get? "join" = some (.string (JoinPolicy.text join)) ∧
          node = .fanout branches join := by
  rw [readFanout]
  refine .after ((keeps_readNodes below).bind ?_ rfl)
  intro branches _
  refine .afterIf (keeps_readJoin.bind ?_ rfl)
  intro join _
  exact .of_pure fun _ => Iff.rfl

theorem keeps_readRoutes :
    (readRoutes members path).Keeps path fun routes =>
      ∃ entries, members.get? "sub_workflows" = some (.object entries) ∧
        RouteShapes entries routes := by
  rw [readRoutes]
  split
  · rename_i entries found
    have each := fun entry member =>
      below entry.2 (sizeOf_lt_of_object found entry member)
    refine .afterIf
      (((keeps_readRoutesFrom each).above (.field _ .self)).congr ?_)
    intro routes
    simp [found]
  · rename_i other noObject found
    refine .of_record rfl (.field _ .self) ?_
    rintro routes ⟨entries, isObject, _⟩
    rw [found, Option.some_inj] at isObject
    exact noObject entries isObject
  · rename_i found
    exact .of_record rfl .self fun routes => by simp [found]

theorem keeps_readOrchestrator :
    (readOrchestrator members path).Keeps path fun node =>
      ∃ routes,
        (∃ entries, members.get? "sub_workflows" = some (.object entries) ∧
          RouteShapes entries routes) ∧
        ∃ rules, RulesAt members rules ∧
          ∃ fallback, OptionalText members "default" fallback ∧
          node = .dispatch (Sorted.ofList routes) rules fallback := by
  rw [readOrchestrator]
  refine .after ((keeps_readRoutes below).bind ?_ rfl)
  intro routes _
  exact keeps_readDispatch

end Members

/-- A value is read as a tree exactly when it has the shape of that tree; and
when it has none, what is misshapen is reported there or below. -/
theorem readsByShape (value : Value) : ReadsByShape value := by
  intro path
  cases value with
  | object members =>
      have below : ∀ value : Value,
          sizeOf value < sizeOf members → ReadsByShape value :=
        fun value _ => readsByShape value
      rw [readNode]
      split
      · rename_i type
        refine keeps_readCall.congr fun node => ⟨fun shape => ?_, ?_⟩
        · have same := type.symm.trans shape.type
          cases shape with
          | call _ toolAt paramsAt outputAt =>
              exact ⟨_, toolAt, _, paramsAt, _, outputAt, rfl⟩
          | _ => exact absurd same (by simp [typeText])
        · rintro ⟨tool, toolAt, params, paramsAt, output, outputAt, rfl⟩
          exact .call type toolAt paramsAt outputAt
      · rename_i type
        refine (keeps_readSequence below).congr fun node =>
          ⟨fun shape => ?_, ?_⟩
        · have same := type.symm.trans shape.type
          cases shape with
          | sequence _ stepsAt shapes => exact ⟨_, ⟨_, stepsAt, shapes⟩, rfl⟩
          | _ => exact absurd same (by simp [typeText])
        · rintro ⟨steps, ⟨items, stepsAt, shapes⟩, rfl⟩
          exact .sequence type stepsAt shapes
      · rename_i type
        refine (keeps_readBranch below).congr fun node => ⟨fun shape => ?_, ?_⟩
        · have same := type.symm.trans shape.type
          cases shape with
          | branch _ conditionAt trueAt shape falseAt =>
              exact ⟨_, conditionAt, _, ⟨_, trueAt, shape⟩, none, falseAt, rfl⟩
          | branchElse _ conditionAt trueAt shape falseAt otherShape =>
              exact ⟨_, conditionAt, _, ⟨_, trueAt, shape⟩, some _,
                ⟨_, falseAt, otherShape⟩, rfl⟩
          | _ => exact absurd same (by simp [typeText])
        · rintro ⟨condition, conditionAt, whenTrue, ⟨value, trueAt, shape⟩,
            otherwise, falseAt, rfl⟩
          cases otherwise with
          | none => exact .branch type conditionAt trueAt shape falseAt
          | some otherwise =>
              obtain ⟨other, falseAt, otherShape⟩ := falseAt
              exact .branchElse type conditionAt trueAt shape falseAt
                otherShape
      · rename_i type
        refine (keeps_readFanout below).congr fun node => ⟨fun shape => ?_, ?_⟩
        · have same := type.symm.trans shape.type
          cases shape with
          | fanout _ branchesAt shapes joinAt =>
              exact ⟨_, ⟨_, branchesAt, shapes⟩, _, joinAt, rfl⟩
          | _ => exact absurd same (by simp [typeText])
        · rintro ⟨branches, ⟨items, branchesAt, shapes⟩, join, joinAt, rfl⟩
          exact .fanout type branchesAt shapes joinAt
      · rename_i type
        refine (keeps_readOrchestrator below).congr fun node =>
          ⟨fun shape => ?_, ?_⟩
        · have same := type.symm.trans shape.type
          cases shape with
          | dispatch _ routesAt shapes rulesAt fallbackAt =>
              exact ⟨_, ⟨_, routesAt, shapes⟩, _, rulesAt, _, fallbackAt, rfl⟩
          | _ => exact absurd same (by simp [typeText])
        · rintro ⟨routes, ⟨entries, routesAt, shapes⟩, rules, rulesAt,
            fallback, fallbackAt, rfl⟩
          exact .dispatch type routesAt shapes rulesAt fallbackAt
      · rename_i other noCall noSequence noBranch noFanout noDispatch type
        refine .of_record rfl (.field _ .self) fun node shape => ?_
        obtain rfl : other = typeText node := by
          simpa using type.symm.trans shape.type
        cases node with
        | call => exact noCall rfl
        | sequence => exact noSequence rfl
        | branch => exact noBranch rfl
        | fanout => exact noFanout rfl
        | dispatch => exact noDispatch rfl
      · rename_i other _ _ _ _ _ noText type
        refine .of_record rfl (.field _ .self) fun node shape => ?_
        exact noText _ (Option.some_inj.mp (type.symm.trans shape.type))
      · rename_i type
        refine .of_record rfl .self fun node shape => ?_
        rw [shape.type] at type
        cases type
  | _ =>
      rw [readNode]
      · refine .of_record rfl .self ?_
        rintro node ⟨⟩
      · rintro members ⟨⟩
termination_by sizeOf value

theorem keeps_readInput {earlier : List String} {value : Value} :
    (readInput earlier value path).Keeps path fun input => ∃ members : Members,
      value = .object members ∧
      ∃ name, members.get? "name" = some (.string name) ∧
        input = ⟨name, (readType members path).value.getD .string,
          (optionalText members "description" path).value.join,
          sample? members⟩ := by
  unfold readInput
  refine keeps_members?.bind ?_ rfl
  intro members _
  refine .afterIf (.after (keeps_requiredText.bind ?_ rfl))
  intro name _
  refine .after (.after (.after (.after ?_)))
  exact .afterIf (.of_pure fun _ => Iff.rfl)

theorem name_readInput
    {earlier : List String} {value : Value} {name : String} :
    (readInput earlier value path).value.map Input.name = some name ↔
      InputShape value name := by
  simp only [Option.map_eq_some_iff, keeps_readInput.kept]
  constructor
  · rintro ⟨_, ⟨members, isObject, name, nameAt, rfl⟩, rfl⟩
    exact ⟨members, isObject, nameAt⟩
  · rintro ⟨members, isObject, nameAt⟩
    exact ⟨_, ⟨members, isObject, name, nameAt, rfl⟩, rfl⟩

theorem names_readInputsFrom
    {position : Nat} {earlier : List String} {items : List Value}
    {names : List String} :
    (readInputsFrom position earlier items).value.map (·.map Input.name) =
      some names ↔
      items.Forall₂ InputShape names := by
  induction items generalizing position earlier names with
  | nil => simp [readInputsFrom, eq_comm]
  | cons item items induction =>
      obtain ⟨earliest, step⟩ : ∃ earliest,
          (readInputsFrom position earlier (item :: items)).value.map
            (·.map Input.name) =
            ((readInput earlier item
                (Path.document.item "inputs" position)).value.map
              Input.name).bind fun name =>
                ((readInputsFrom (position + 1) earliest items).value.map
                  (·.map Input.name)).bind fun names =>
                    some (name :: names) := by
        refine ⟨(readInput earlier item
          (Path.document.item "inputs" position)).value.toList.map
            Input.name ++ earlier, ?_⟩
        simp only [readInputsFrom, Checked.value_bind, Checked.value_pure]
        cases (readInput earlier item
            (Path.document.item "inputs" position)).value with
        | none => rfl
        | some input =>
            cases (readInputsFrom (position + 1)
                ((some input).toList.map Input.name ++ earlier)
                items).value <;> rfl
      rw [step, List.forall₂_cons_left_iff]
      simp only [Option.bind_eq_some_iff, name_readInput, induction,
        Option.some_inj]
      constructor
      · rintro ⟨name, first, others, rest, rfl⟩
        exact ⟨name, others, first, rest, rfl⟩
      · rintro ⟨name, others, first, rest, rfl⟩
        exact ⟨name, first, others, rest, rfl⟩

theorem lost_readInputsFrom
    {position : Nat} {earlier : List String} {items : List Value}
    (isNone : (readInputsFrom position earlier items).value = none) :
    Misshapen (.field .document "inputs")
      (readInputsFrom position earlier items).issues := by
  induction items generalizing position earlier with
  | nil => cases isNone
  | cons item items induction =>
      simp only [readInputsFrom, Checked.issues_bind, Misshapen.append]
      cases read : (readInput earlier item
          (Path.document.item "inputs" position)).value with
      | none =>
          exact .inl
            ((keeps_readInput.lost read).above (Path.below_item _ _ _))
      | some input =>
          refine .inr (.inl (induction ?_))
          simp only [readInputsFrom, Checked.value_bind, Checked.value_pure,
            read, Option.bind_eq_bind, Option.bind_some,
            Option.bind_eq_none_iff] at isNone
          rw [Option.eq_none_iff_forall_ne_some]
          intro inputs found
          cases isNone inputs found

/-- A finding for which a document may come to no tree: it is no object, its
inputs or its tree are missing, or something in them is misshapen. -/
def IsUnreadable (finding : Finding) (path : Path) : Prop :=
  (path = .document ∧
    ∃ found, finding = .notAnObject "the workflow document" found) ∨
    ∃ key ∈ ["inputs", "workflow"],
      (path = .document ∧ finding = .missingKey key) ∨
        (finding.isMisshapen = true ∧ (Path.field .document key).Below path)

theorem exists_isUnreadable
    {issues : List Issue} (known : key ∈ ["inputs", "workflow"])
    (misshapen : Misshapen (.field .document key) issues) :
    ∃ finding path,
      IsUnreadable finding path ∧ finding.issue path ∈ issues := by
  obtain ⟨finding, path, isMisshapen, below, member⟩ := misshapen
  exact ⟨finding, path, .inr ⟨key, known, .inr ⟨isMisshapen, below⟩⟩, member⟩

theorem names_readInputs {names : List String} :
    (readInputs members).value.map (·.map Input.name) = some names ↔
      ∃ items, members.get? "inputs" = some (.array items) ∧
        items.Forall₂ InputShape names := by
  unfold readInputs
  cases members.get? "inputs" with
  | none => simp
  | some value =>
      cases value with
      | array items =>
          simp only [Option.some_inj, Value.array.injEq, exists_eq_left']
          exact names_readInputsFrom
      | _ => simp

theorem lost_readInputs (isNone : (readInputs members).value = none) :
    ∃ finding path, IsUnreadable finding path ∧
      finding.issue path ∈ (readInputs members).issues := by
  revert isNone
  unfold readInputs
  cases members.get? "inputs" with
  | none =>
      intro _
      exact ⟨_, _, .inr ⟨"inputs", by simp, .inl ⟨rfl, rfl⟩⟩,
        List.mem_append_left _ (List.mem_singleton.mpr rfl)⟩
  | some value =>
      cases value with
      | array items =>
          intro isNone
          exact exists_isUnreadable (by simp) (lost_readInputsFrom isNone)
      | _ =>
          intro _
          exact ⟨_, _, .inr ⟨"inputs", by simp, .inr ⟨rfl, .self⟩⟩,
            List.mem_append_left _ (List.mem_singleton.mpr rfl)⟩

theorem readChild_of_some
    {value : Value} (found : members.get? key = some value) :
    readChild members key path = readNode value (.field path key) := by
  rw [readChild]
  split
  · rename_i other present
    cases found.symm.trans present
    rfl
  · rename_i absent
    cases found.symm.trans absent

theorem lost_readWorkflow
    (isNone : (readChild members "workflow" .document).value = none) :
    ∃ finding path, IsUnreadable finding path ∧
      finding.issue path ∈
        (readChild members "workflow" .document).issues := by
  cases found : members.get? "workflow" with
  | none =>
      rw [readChild]
      split
      · rename_i value present
        cases found.symm.trans present
      · exact ⟨_, _, .inr ⟨"workflow", by simp, .inl ⟨rfl, rfl⟩⟩,
          List.mem_append_left _ (List.mem_singleton.mpr rfl)⟩
  | some value =>
      rw [readChild_of_some found] at isNone ⊢
      exact exists_isUnreadable (by simp) ((readsByShape value _).lost isNone)

theorem value_readSpec :
    (readSpec (.object members)).value = do
      let inputs ← (readInputs members).value
      let workflow ← (readChild members "workflow" .document).value
      return ⟨(readName members).value,
        (optionalText members "description" .document).value.join.getD "",
        (readVersion members).value, inputs, (readOutputs members).value,
        workflow,
        (readMetadata members).value⟩ :=
  rfl

theorem specShape_object {names : List String} {workflow : Node} :
    SpecShape (.object members) names workflow ↔
      (readInputs members).value.map (·.map Input.name) = some names ∧
        (readChild members "workflow" .document).value = some workflow := by
  have tree : (readChild members "workflow" .document).value = some workflow ↔
      ∃ value,
        members.get? "workflow" = some value ∧ NodeShape value workflow :=
    (keeps_readChild fun value _ => readsByShape value).kept workflow
  rw [names_readInputs, tree]
  constructor
  · rintro ⟨_, items, value, ⟨⟩, inputsAt, inputs, workflowAt, shape⟩
    exact ⟨⟨items, inputsAt, inputs⟩, value, workflowAt, shape⟩
  · rintro ⟨⟨items, inputsAt, inputs⟩, value, workflowAt, shape⟩
    exact ⟨members, items, value, rfl, inputsAt, inputs, workflowAt, shape⟩

/-- The names and the tree of what is read are the ones that the document has
the shape of. -/
theorem specShape_iff
    {document : Value} {names : List String} {workflow : Node} :
    SpecShape document names workflow ↔
      ∃ spec, (readSpec document).value = some spec ∧
      names = spec.inputs.map Input.name ∧ workflow = spec.workflow := by
  cases document with
  | object members =>
      rw [specShape_object, value_readSpec]
      simp only [Option.bind_eq_bind, Option.pure_def, Option.bind_eq_some_iff,
        Option.some_inj, Option.map_eq_some_iff]
      constructor
      · rintro ⟨⟨inputs, readInputs, rfl⟩, readTree⟩
        exact ⟨_, ⟨inputs, readInputs, workflow, readTree, rfl⟩, rfl, rfl⟩
      · rintro ⟨_, ⟨inputs, readInputs, tree, readTree, rfl⟩, rfl, rfl⟩
        exact ⟨⟨inputs, readInputs, rfl⟩, readTree⟩
  | _ =>
      constructor
      · rintro ⟨members, items, value, ⟨⟩, _⟩
      · rintro ⟨spec, ⟨⟩, _⟩

theorem lost_readSpec
    {document : Value} (isNone : (readSpec document).value = none) :
    ∃ finding path, IsUnreadable finding path ∧
      finding.issue path ∈ (readSpec document).issues := by
  cases document with
  | object members =>
      have part : ∃ finding path, IsUnreadable finding path ∧
          (finding.issue path ∈ (readInputs members).issues ∨
            finding.issue path ∈
              (readChild members "workflow" .document).issues) := by
        cases inputs : (readInputs members).value with
        | none =>
            obtain ⟨finding, path, unreadable, member⟩ :=
              lost_readInputs inputs
            exact ⟨finding, path, unreadable, .inl member⟩
        | some found =>
            cases tree : (readChild members "workflow" .document).value with
            | none =>
                obtain ⟨finding, path, unreadable, member⟩ :=
                  lost_readWorkflow tree
                exact ⟨finding, path, unreadable, .inr member⟩
            | some workflow =>
                rw [value_readSpec, inputs, tree] at isNone
                cases isNone
      obtain ⟨finding, path, unreadable, member⟩ := part
      refine ⟨finding, path, unreadable, ?_⟩
      simp only [readSpec, members?, Checked.issues_bind, Checked.value_pure,
        List.mem_append]
      rcases member with inInputs | inTree
      · simp only [inInputs, true_or, or_true]
      · simp only [inTree, true_or, or_true]
  | _ =>
      exact ⟨_, _, .inl ⟨rfl, _, rfl⟩,
        List.mem_append_left _
          (List.mem_append_left _ (List.mem_singleton.mpr rfl))⟩

/-- What is found in a tree that was read comes beside what was found in
reading it. -/
theorem errors_check {limits : Limits} {document : Value} {spec : Spec}
    (read : (readSpec document).value = some spec) :
    (check limits document).errors =
      (readSpec document).issues.filter (·.severity == .error) ++
        ((limits.violations (.field .document "workflow") spec.workflow).map
          Violation.issue ++
          spec.analyze.errors.map ScopeError.issue) := by
  have excesses : ∀ violations : List Violation,
      (violations.map Violation.issue).filter (·.severity == .error) =
        violations.map Violation.issue := by
    intro violations
    rw [List.filter_eq_self, List.forall_mem_map]
    exact fun _ _ => rfl
  have unbound : ∀ errors : List ScopeError,
      (errors.map ScopeError.issue).filter (·.severity == .error) =
        errors.map ScopeError.issue := by
    intro errors
    rw [List.filter_eq_self, List.forall_mem_map]
    exact fun _ _ => rfl
  have contested : ∀ warnings : List ScopeWarning,
      (warnings.map ScopeWarning.issue).filter (·.severity == .error) =
        [] := by
    intro warnings
    rw [List.filter_eq_nil_iff, List.forall_mem_map]
    intro _ _ isError
    cases isError
  simp only [check, Report.ofIssues, inspect, read, Spec.issues,
    List.filter_append, excesses, unbound, contested, List.append_nil]

theorem severity_of_isUnreadable {finding : Finding} {path : Path}
    (unreadable : IsUnreadable finding path) : finding.severity = .error := by
  rcases unreadable with ⟨_, _, rfl⟩ | ⟨_, _, ⟨_, rfl⟩ | ⟨isMisshapen, _⟩⟩
  · rfl
  · rfl
  · exact finding.severity_of_isMisshapen isMisshapen

/-- A document comes to a specification exactly when it has a usable shape, and
its tree and the names of its inputs are then the ones of that shape.  The
errors are those of the reading, with all excesses and all unbound references
of the tree beside them.  Where there is no tree, an error tells of something
misshapen in the inputs or the tree: a bad name, a refused condition, an
unknown target, too few steps, branches or routes, or anything about the
version, the outputs or the metadata never is the reason. -/
theorem keeps_tree_iff_specShape (limits : Limits) (document : Value) :
    ((readSpec document).value.isSome = true ↔
      ∃ names workflow, SpecShape document names workflow) ∧
    (∀ spec, (readSpec document).value = some spec →
      (∀ names workflow, SpecShape document names workflow ↔
        names = spec.inputs.map Input.name ∧ workflow = spec.workflow) ∧
      (check limits document).errors =
        (readSpec document).issues.filter (·.severity == .error) ++
          ((limits.violations (.field .document "workflow") spec.workflow).map
            Violation.issue ++
            spec.analyze.errors.map ScopeError.issue)) ∧
    ((readSpec document).value = none →
      ∃ finding path, IsUnreadable finding path ∧
      finding.issue path ∈ (check limits document).errors) := by
  refine ⟨?_, ?_, ?_⟩
  · rw [Option.isSome_iff_exists]
    constructor
    · rintro ⟨spec, read⟩
      exact ⟨_, _, specShape_iff.mpr ⟨spec, read, rfl, rfl⟩⟩
    · rintro ⟨names, workflow, shape⟩
      obtain ⟨spec, read, _⟩ := specShape_iff.mp shape
      exact ⟨spec, read⟩
  · intro spec read
    refine ⟨?_, errors_check read⟩
    intro names workflow
    rw [specShape_iff, read]
    constructor
    · rintro ⟨_, ⟨⟩, sameNames, sameTree⟩
      exact ⟨sameNames, sameTree⟩
    · exact fun same => ⟨spec, rfl, same⟩
  · intro isNone
    obtain ⟨finding, path, unreadable, member⟩ := lost_readSpec isNone
    refine ⟨finding, path, unreadable, ?_⟩
    simp only [check, Report.ofIssues, inspect, isNone, List.mem_filter]
    exact ⟨member, beq_iff_eq.mpr (severity_of_isUnreadable unreadable)⟩

/-- Nothing about this document is right but its shape. -/
def roughMembers : Members :=
  [("name", .string "Two Words"), ("version", .string "one"),
    ("outputs", .string "none"),
    ("metadata", .array []),
    ("inputs", .array [.object [("name", .string "Home-Town")]]),
    ("workflow", .object [("type", .string "sequential"), ("steps", .array [
      .object [("type", .string "conditional"),
        ("condition", .string "import os"),
        ("if_true",
          .object [("type", .string "sequential"), ("steps", .array [])])],
      .object [("type", .string "tool_call"), ("tool", .string "2nd"),
        ("params", .object [("to", .string "\x7b\x7bghost\x7d\x7d")])]])])]

def roughTree : Node :=
  .sequence [.branch "import os" (.sequence []) none,
    .call ⟨"2nd", [("to", .string "\x7b\x7bghost\x7d\x7d")], none⟩]

theorem specShape_roughMembers :
    SpecShape (.object roughMembers) ["Home-Town"] roughTree := by
  refine ⟨_, _, _, rfl, rfl, .cons ⟨_, rfl, rfl⟩ .nil, rfl, ?_⟩
  refine .sequence rfl rfl (.cons ?_ (.cons ?_ .nil))
  · exact .branch rfl rfl rfl (.sequence rfl rfl .nil) (.inl rfl)
  · exact .call rfl rfl (.inl rfl) (.inl rfl)

theorem keeps_tree_iff_specShape_rough :
    ∃ spec, (readSpec (.object roughMembers)).value = some spec ∧
      spec.workflow = roughTree ∧
      ∃ issue ∈ (check {} (.object roughMembers)).errors, issue.kind = .scope ∧
        issue.path =
          .field (.field ((Path.field .document "workflow").item "steps" 1)
              "params") "to" := by
  have unbound : (roughTree.analyze (NameSet.ofList ["Home-Town"])
      (.field .document "workflow")).errors.map ScopeError.path =
      [.field
        (.field ((Path.field .document "workflow").item "steps" 1) "params")
        "to"] := by
    decide +kernel
  obtain ⟨shaped, kept, _⟩ :=
    keeps_tree_iff_specShape {} (.object roughMembers)
  obtain ⟨spec, read⟩ :=
    Option.isSome_iff_exists.mp (shaped.mpr ⟨_, _, specShape_roughMembers⟩)
  obtain ⟨only, errors⟩ := kept spec read
  obtain ⟨names, tree⟩ := (only _ _).mp specShape_roughMembers
  refine ⟨spec, read, tree.symm, ?_⟩
  rw [errors, Spec.analyze, ← names, ← tree]
  obtain ⟨error, member, path⟩ :=
    List.mem_map.mp (unbound ▸ List.mem_singleton.mpr rfl)
  exact ⟨error.issue, List.mem_append_right _ (List.mem_append_right _
    (List.mem_map_of_mem member)), rfl, path⟩

end Document

end Workflow
