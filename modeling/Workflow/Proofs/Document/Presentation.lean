import Mathlib.Logic.Relation
import Workflow.Compile
import Workflow.Proofs.Document.Canonical
import Workflow.Proofs.Sequencing
import Workflow.Proofs.Value.Members

/-!
# Presentation of documents

The same workflow can be written in many ways: members of an object stand in
any order, keys without a meaning come and go, and an optional key may be null
or absent.  `Edit` is one such change somewhere in a document, and `Restated`
any number of them, done or undone.  What a document means is the same before
and behind an edit, and so are its acceptance, its canonical text and its
program.  The order of parameters, and all that is inside of their values, is
not touched by edits.
-/

namespace Workflow

theorem LawfulRouting.of_sorted_eq
    {routes others : List (String × Node)} {rules : List Rule}
    {fallback : Option String}
    (same : Sorted.ofList others = Sorted.ofList routes)
    (routing : LawfulRouting (routes.map Prod.fst) rules fallback) :
    LawfulRouting (others.map Prod.fst) rules fallback := by
  have known :
      ∀ name, name ∈ routes.map Prod.fst → name ∈ others.map Prod.fst := by
    intro name member
    rw [← Sorted.mem_names_ofList, same, Sorted.mem_names_ofList]
    exact member
  refine ⟨?_, ?_, routing.leads⟩
  · intro rule member
    obtain ⟨accepted, isKnown⟩ := routing.ofRule rule member
    exact ⟨accepted, known _ isKnown⟩
  · intro target isFallback
    exact known _ (routing.ofFallback target isFallback)

namespace Document

/-- The keys that mean something in an object.  Optional keys may be null. -/
structure Vocabulary where
  required : List String
  optional : List String

def Vocabulary.known (vocabulary : Vocabulary) : List String :=
  vocabulary.required ++ vocabulary.optional

/-- What an object of a document stands for. -/
inductive Place where
  | document
  | input
  | output
  | node
  | rule
  | routes
  | metadata

namespace Place

def nodeVocabulary? : String → Option Vocabulary
  | "tool_call" => some ⟨["type", "tool"], ["params", "output"]⟩
  | "sequential" => some ⟨["type", "steps"], []⟩
  | "conditional" => some ⟨["type", "condition", "if_true"], ["if_false"]⟩
  | "parallel" => some ⟨["type", "branches", "join"], []⟩
  | "orchestrator" => some ⟨["type", "sub_workflows"], ["rules", "default"]⟩
  | _ => none

/-- The vocabulary of an object.  Routes and metadata have none, since all
their keys count; that of a node depends on its type. -/
def vocabulary? : Place → Members → Option Vocabulary
  | .document, _ =>
      some ⟨["name", "version", "inputs", "workflow"],
        ["description", "outputs", "metadata"]⟩
  | .input, _ => some ⟨["name", "type"], ["description", "example"]⟩
  | .output, _ => some ⟨["name", "type"], ["description"]⟩
  | .rule, _ => some ⟨["condition", "target"], []⟩
  | .node, members =>
      match members.get? "type" with
      | some (.string type) => nodeVocabulary? type
      | _ => none
  | .routes, _ => none
  | .metadata, _ => none

/-- What the object at a key stands for. -/
def objectAt? : Place → String → Option Place
  | .document, "workflow" => some .node
  | .document, "metadata" => some .metadata
  | .node, "if_true" => some .node
  | .node, "if_false" => some .node
  | .node, "sub_workflows" => some .routes
  | .routes, _ => some .node
  | _, _ => none

/-- What the objects of the array at a key stand for. -/
def itemsAt? : Place → String → Option Place
  | .document, "inputs" => some .input
  | .document, "outputs" => some .output
  | .node, "steps" => some .node
  | .node, "branches" => some .node
  | .node, "rules" => some .rule
  | _, _ => none

end Place

/-- One change to the presentation of an object, or to that of an object inside
of it. -/
inductive Edit : Place → Members → Members → Prop where
  | reorder {place : Place} {left right : Members} (distinct : left.keys.Nodup)
      (permuted : left.Perm right) : Edit place left right
  | unknown {place : Place} {members : Members} {vocabulary : Vocabulary}
      {key : String} (value : Value)
      (described : place.vocabulary? members = some vocabulary)
      (isUnknown : key ∉ vocabulary.known) :
      Edit place members ((key, value) :: members)
  | null {place : Place} {members : Members} {vocabulary : Vocabulary}
      {key : String} (described : place.vocabulary? members = some vocabulary)
      (isOptional : key ∈ vocabulary.optional) (absent : key ∉ members.keys) :
      Edit place members ((key, .null) :: members)
  | object {place inner : Place} {key : String} {left right rest : Members}
      (inside : place.objectAt? key = some inner)
      (edit : Edit inner left right) :
      Edit place ((key, .object left) :: rest) ((key, .object right) :: rest)
  | item {place inner : Place} {key : String} {left right rest : Members}
      {front back : List Value} (inside : place.itemsAt? key = some inner)
      (edit : Edit inner left right) :
      Edit place ((key, .array (front ++ .object left :: back)) :: rest)
        ((key, .array (front ++ .object right :: back)) :: rest)

/-- Two documents that differ only in their presentation. -/
def Restated : Members → Members → Prop :=
  Relation.EqvGen (Edit .document)

/-- Objects that mean the same. -/
def Alike : Place → Members → Members → Prop
  | .document, left, right =>
      ∀ spec, SpecMembers left spec ↔ SpecMembers right spec
  | .input, left, right =>
      ∀ input, InputDocument (.object left) input ↔
        InputDocument (.object right) input
  | .output, left, right =>
      ∀ output, OutputDocument (.object left) output ↔
        OutputDocument (.object right) output
  | .node, left, right =>
      ∀ node,
        NodeDocument (.object left) node ↔ NodeDocument (.object right) node
  | .rule, left, right =>
      ∀ rule,
        RuleDocument (.object left) rule ↔ RuleDocument (.object right) rule
  | .routes, left, right =>
      ∀ routes,
        (∃ given, RouteDocuments left given ∧ Sorted.ofList given = routes) ↔
        ∃ given, RouteDocuments right given ∧ Sorted.ofList given = routes
  | .metadata, left, right => Sorted.ofList left = Sorted.ofList right

theorem Alike.refl (place : Place) (members : Members) :
    Alike place members members := by
  cases place with
  | metadata => rfl
  | _ => exact fun _ => Iff.rfl

theorem Alike.symm
    {place : Place} {left right : Members} (alike : Alike place left right) :
    Alike place right left := by
  cases place with
  | metadata => exact Eq.symm alike
  | _ => exact fun meaning => (alike meaning).symm

/-- Items that are equal, or objects that mean the same. -/
def AlikeItems (place : Place) (left right : Value) : Prop :=
  left = right ∨
    ∃ leftMembers rightMembers,
      left = .object leftMembers ∧ right = .object rightMembers ∧
      Alike place leftMembers rightMembers

theorem AlikeItems.symm
    {place : Place} {left right : Value}
    (alike : AlikeItems place left right) :
    AlikeItems place right left := by
  rcases alike with rfl | ⟨leftMembers, rightMembers, rfl, rfl, alike⟩
  · exact .inl rfl
  · exact .inr ⟨_, _, rfl, rfl, alike.symm⟩

/-- What two objects may have at a key when they mean the same. -/
inductive AgreeAt (place : Place) (optional : List String) (key : String) :
    Option Value → Option Value → Prop where
  | same (value? : Option Value) : AgreeAt place optional key value? value?
  | added (isOptional : key ∈ optional) :
      AgreeAt place optional key none (some .null)
  | removed (isOptional : key ∈ optional) :
      AgreeAt place optional key (some .null) none
  | object {inner : Place} {left right : Members}
      (inside : place.objectAt? key = some inner)
      (alike : Alike inner left right) :
      AgreeAt place optional key (some (.object left)) (some (.object right))
  | items {inner : Place} {left right : List Value}
      (inside : place.itemsAt? key = some inner)
      (alike : left.Forall₂ (AlikeItems inner) right) :
      AgreeAt place optional key (some (.array left)) (some (.array right))

/-- Objects with the same vocabulary that agree at every key of it. -/
structure Agree (place : Place) (left right : Members) : Prop where
  described : place.vocabulary? left = place.vocabulary? right
  agreeAt : ∀ vocabulary,
      place.vocabulary? left = some vocabulary → ∀ key ∈ vocabulary.known,
        AgreeAt place vocabulary.optional key (left.get? key) (right.get? key)

namespace AgreeAt

variable {place inner : Place} {optional : List String} {key : String}
  {left? right? : Option Value}

theorem symm (agree : AgreeAt place optional key left? right?) :
    AgreeAt place optional key right? left? := by
  cases agree with
  | same => exact .same _
  | added isOptional => exact .removed isOptional
  | removed isOptional => exact .added isOptional
  | object inside alike => exact .object inside alike.symm
  | items inside alike =>
      apply AgreeAt.items inside
      apply alike.flip.imp
      intro right left similar
      exact AlikeItems.symm similar

theorem string
    (agree : AgreeAt place optional key left? right?) {text : String}
    (given : left? = some (.string text)) :
    right? = some (.string text) := by
  subst given
  cases agree
  rfl

theorem nothing
    (agree : AgreeAt place optional key left? right?)
    (given : left? = none ∨ left? = some .null) :
    right? = none ∨ right? = some .null := by
  cases agree with
  | same => exact given
  | added _ => exact .inr rfl
  | removed _ => exact .inl rfl
  | object _ _ => simp at given
  | items _ _ => simp at given

theorem optionalText
    {left right : Members}
    (agree : AgreeAt place optional key (left.get? key) (right.get? key))
    {text? : Option String} (given : OptionalText left key text?) :
    OptionalText right key text? := by
  cases text? with
  | none => exact agree.nothing given
  | some text => exact agree.string given

/-- A value that no edit goes into stays as it is, unless there is none. -/
theorem eq_or_nothing
    (agree : AgreeAt place optional key left? right?)
    (noObject : place.objectAt? key = none)
    (noItems : place.itemsAt? key = none) :
    right? = left? ∨
      (left? = none ∨ left? = some .null) ∧
      (right? = none ∨ right? = some .null) := by
  cases agree with
  | same => exact .inl rfl
  | added _ => exact .inr ⟨.inl rfl, .inr rfl⟩
  | removed _ => exact .inr ⟨.inr rfl, .inl rfl⟩
  | object inside _ => simp [noObject] at inside
  | items inside _ => simp [noItems] at inside

theorem exists_object (agree : AgreeAt place optional key left? right?)
    (inside : place.objectAt? key = some inner) {left : Members}
    (given : left? = some (.object left)) :
    ∃ right, right? = some (.object right) ∧ Alike inner left right := by
  subst given
  cases agree with
  | same => exact ⟨left, rfl, .refl inner left⟩
  | object alsoInside alike =>
      cases inside.symm.trans alsoInside
      exact ⟨_, rfl, alike⟩

theorem exists_items (agree : AgreeAt place optional key left? right?)
    (inside : place.itemsAt? key = some inner) {left : List Value}
    (given : left? = some (.array left)) :
    ∃ right, right? = some (.array right) ∧
      left.Forall₂ (AlikeItems inner) right := by
  subst given
  cases agree with
  | same => exact ⟨left, rfl, List.forall₂_same.mpr fun _ _ => .inl rfl⟩
  | items alsoInside alike =>
      cases inside.symm.trans alsoInside
      exact ⟨_, rfl, alike⟩

end AgreeAt

theorem Agree.symm
    {place : Place} {left right : Members} (agree : Agree place left right) :
    Agree place right left := by
  refine ⟨agree.described.symm, ?_⟩
  intro vocabulary described key isKnown
  exact (agree.agreeAt vocabulary (agree.described.trans described) key
      isKnown).symm

theorem Agree.forall_known
    {place : Place} {left right : Members} {vocabulary : Vocabulary}
    (agree : Agree place left right)
    (described : place.vocabulary? left = some vocabulary) :
    vocabulary.known.Forall fun key =>
      AgreeAt place vocabulary.optional key (left.get? key) (right.get? key) :=
  List.forall_iff_forall_mem.mpr (agree.agreeAt vocabulary described)

variable {left right : Members}

/-- Items that mean the same are documents of the same things. -/
theorem forall₂_of_alike
    {α : Type} {Means : Value → α → Prop} {place : Place}
    (transfer : ∀ {left right : Members} {meaning : α},
      Alike place left right → Means (.object left) meaning →
      Means (.object right) meaning) {items others : List Value}
    {meanings : List α} (alike : items.Forall₂ (AlikeItems place) others)
    (documents : items.Forall₂ Means meanings) :
    others.Forall₂ Means meanings := by
  induction documents generalizing others with
  | nil =>
      cases alike
      exact .nil
  | cons first _ induction =>
      cases alike with
      | cons firstAlike restAlike =>
          apply List.Forall₂.cons _ (induction restAlike)
          rcases firstAlike with
            rfl | ⟨leftMembers, rightMembers, rfl, rfl, same⟩
          · exact first
          · exact transfer same first

theorem NodeDocuments.of_alike
    {items others : List Value} {nodes : List Node}
    (alike : items.Forall₂ (AlikeItems .node) others)
    (documents : NodeDocuments items nodes) :
    NodeDocuments others nodes := by
  induction alike generalizing nodes with
  | nil => exact documents
  | cons firstAlike _ induction =>
      cases documents with
      | cons first rest =>
          apply NodeDocuments.cons _ (induction rest)
          rcases firstAlike with
            rfl | ⟨leftMembers, rightMembers, rfl, rfl, same⟩
          · exact first
          · exact (same _).mp first

theorem InputDocument.of_agree
    {input : Input} (agree : Agree .input left right)
    (document : InputDocument (.object left) input) :
    InputDocument (.object right) input := by
  obtain ⟨_, ⟨⟩, nameAt, typeAt, descriptionAt, sampled⟩ := document
  obtain ⟨atName, atType, atDescription, atExample⟩ := agree.forall_known rfl
  refine ⟨right, rfl, atName.string nameAt, atType.string typeAt,
    atDescription.optionalText descriptionAt, sampled.trans ?_⟩
  rcases atExample.eq_or_nothing rfl rfl with
    same | ⟨leftNothing, rightNothing⟩
  · rw [sample?, sample?, same]
  · have absent : ∀ {members : Members},
        members.get? "example" = none ∨ members.get? "example" = some .null →
          sample? members = none := by
      rintro members (missing | null)
      · rw [sample?, missing]
      · rw [sample?, null]
    rw [absent leftNothing, absent rightNothing]

theorem OutputDocument.of_agree
    {output : Output} (agree : Agree .output left right)
    (document : OutputDocument (.object left) output) :
    OutputDocument (.object right) output := by
  obtain ⟨_, ⟨⟩, nameAt, typeAt, descriptionAt⟩ := document
  obtain ⟨atName, atType, atDescription⟩ := agree.forall_known rfl
  exact ⟨right, rfl, atName.string nameAt, atType.string typeAt,
    atDescription.optionalText descriptionAt⟩

theorem RuleDocument.of_agree
    {rule : Rule} (agree : Agree .rule left right)
    (document : RuleDocument (.object left) rule) :
    RuleDocument (.object right) rule := by
  obtain ⟨_, ⟨⟩, conditionAt, targetAt⟩ := document
  obtain ⟨atCondition, atTarget⟩ := agree.forall_known rfl
  exact ⟨right, rfl, atCondition.string conditionAt, atTarget.string targetAt⟩

theorem ParamsAt.of_agree
    {optional : List String} {params : Members}
    (agree : AgreeAt .node optional "params" (left.get? "params")
      (right.get? "params")) (paramsAt : ParamsAt left params) :
    ParamsAt right params := by
  rcases paramsAt with given | ⟨noParams, absent⟩
  · rcases agree.eq_or_nothing rfl rfl with same | ⟨nothing, _⟩
    · exact .inl (same.trans given)
    · simp [given] at nothing
  · exact .inr ⟨noParams, agree.nothing absent⟩

theorem RulesAt.of_agree
    {optional : List String} {rules : List Rule}
    (agree :
      AgreeAt .node optional "rules" (left.get? "rules") (right.get? "rules"))
    (rulesAt : RulesAt left rules) :
    RulesAt right rules := by
  rcases rulesAt with ⟨items, given, documents⟩ | ⟨noRules, absent⟩
  · obtain ⟨others, alsoGiven, alike⟩ := agree.exists_items rfl given
    exact .inl ⟨others, alsoGiven,
      forall₂_of_alike (fun same => (same _).mp) alike documents⟩
  · exact .inr ⟨noRules, agree.nothing absent⟩

theorem NodeDocument.exists_object
    {value : Value} {node : Node} (document : NodeDocument value node) :
    ∃ members, value = .object members := by
  cases document <;> exact ⟨_, rfl⟩

/-- The value at a key that holds a node, in both objects. -/
theorem AgreeAt.exists_node
    {optional : List String} {key : String} {place : Place}
    (agree : AgreeAt place optional key (left.get? key) (right.get? key))
    (inside : place.objectAt? key = some .node) {value : Value} {node : Node}
    (given : left.get? key = some value) (document : NodeDocument value node) :
    ∃ other, right.get? key = some other ∧ NodeDocument other node := by
  obtain ⟨members, rfl⟩ := document.exists_object
  obtain ⟨others, alsoGiven, alike⟩ := agree.exists_object inside given
  exact ⟨.object others, alsoGiven, (alike node).mp document⟩

/-- The array at a key that holds nodes, in both objects. -/
theorem AgreeAt.exists_nodes
    {optional : List String} {key : String} {place : Place}
    (agree : AgreeAt place optional key (left.get? key) (right.get? key))
    (inside : place.itemsAt? key = some .node) {items : List Value}
    {nodes : List Node} (given : left.get? key = some (.array items))
    (documents : NodeDocuments items nodes) :
    ∃ others,
      right.get? key = some (.array others) ∧ NodeDocuments others nodes := by
  obtain ⟨others, alsoGiven, alike⟩ := agree.exists_items inside given
  exact ⟨others, alsoGiven, documents.of_alike alike⟩

theorem vocabulary?_node {members : Members} {type : String}
    (given : members.get? "type" = some (.string type)) :
    Place.vocabulary? .node members = Place.nodeVocabulary? type := by
  simp only [Place.vocabulary?, given]

theorem NodeDocument.of_agree
    {node : Node} (agree : Agree .node left right)
    (document : NodeDocument (.object left) node) :
    NodeDocument (.object right) node := by
  cases document with
  | call type toolAt paramsAt outputAt lawful =>
      obtain ⟨atType, atTool, atParams, atOutput⟩ :=
        agree.forall_known (vocabulary?_node type)
      exact .call (atType.string type) (atTool.string toolAt)
        (paramsAt.of_agree atParams) (atOutput.optionalText outputAt) lawful
  | sequence type stepsAt documents notEmpty =>
      obtain ⟨atType, atSteps⟩ := agree.forall_known (vocabulary?_node type)
      obtain ⟨others, stepsAt, documents⟩ :=
        atSteps.exists_nodes rfl stepsAt documents
      exact .sequence (atType.string type) stepsAt documents notEmpty
  | branch type conditionAt accepted trueAt document falseAt =>
      obtain ⟨atType, atCondition, atTrue, atFalse⟩ :=
        agree.forall_known (vocabulary?_node type)
      obtain ⟨value, trueAt, document⟩ :=
        atTrue.exists_node rfl trueAt document
      exact .branch (atType.string type) (atCondition.string conditionAt)
        accepted trueAt document (atFalse.nothing falseAt)
  | branchElse type conditionAt accepted trueAt document falseAt
      otherDocument =>
      obtain ⟨atType, atCondition, atTrue, atFalse⟩ :=
        agree.forall_known (vocabulary?_node type)
      obtain ⟨value, trueAt, document⟩ :=
        atTrue.exists_node rfl trueAt document
      obtain ⟨other, falseAt, otherDocument⟩ :=
        atFalse.exists_node rfl falseAt otherDocument
      exact .branchElse (atType.string type) (atCondition.string conditionAt)
        accepted trueAt document falseAt otherDocument
  | fanout type branchesAt documents several joinAt =>
      obtain ⟨atType, atBranches, atJoin⟩ :=
        agree.forall_known (vocabulary?_node type)
      obtain ⟨others, branchesAt, documents⟩ :=
        atBranches.exists_nodes rfl branchesAt documents
      exact .fanout (atType.string type) branchesAt documents several
        (atJoin.string joinAt)
  | dispatch type routesAt documents notEmpty rulesAt fallbackAt routing =>
      obtain ⟨atType, atRoutes, atRules, atDefault⟩ :=
        agree.forall_known (vocabulary?_node type)
      obtain ⟨entries, routesAt, alike⟩ := atRoutes.exists_object rfl routesAt
      obtain ⟨given, documents, same⟩ := (alike _).mp ⟨_, documents, rfl⟩
      rw [← same]
      refine .dispatch (atType.string type) routesAt documents ?_
        (rulesAt.of_agree atRules) (atDefault.optionalText fallbackAt)
        (routing.of_sorted_eq same)
      rintro rfl
      exact ofList_ne_nil notEmpty same.symm

theorem SpecMembers.of_agree {spec : Spec} (agree : Agree .document left right)
    (document : SpecMembers left spec) : SpecMembers right spec := by
  obtain ⟨atName, atVersion, atInputs, atWorkflow, atDescription, atOutputs,
    atMetadata⟩ :=
    agree.forall_known rfl
  obtain ⟨description, descriptionAt, given⟩ := document.descriptionAt
  obtain ⟨items, inputsAt, inputs⟩ := document.inputsAt
  obtain ⟨others, alsoInputsAt, inputsAlike⟩ :=
    atInputs.exists_items rfl inputsAt
  obtain ⟨value, workflowAt, tree⟩ := document.workflowAt
  refine ⟨atName.string document.nameAt, document.name,
    ⟨description, atDescription.optionalText descriptionAt, given⟩,
    atVersion.string document.versionAt, document.version,
    ⟨others, alsoInputsAt,
      forall₂_of_alike (fun same => (same _).mp) inputsAlike inputs⟩,
    document.inputs, ?_, document.outputs, ?_,
    atWorkflow.exists_node rfl workflowAt tree⟩
  · rcases document.outputsAt with
      ⟨outputs, outputsAt, documents⟩ | ⟨noOutputs, absent⟩
    · obtain ⟨others, alsoOutputsAt, alike⟩ :=
        atOutputs.exists_items rfl outputsAt
      exact .inl ⟨others, alsoOutputsAt,
        forall₂_of_alike (fun same => (same _).mp) alike documents⟩
    · exact .inr ⟨noOutputs, atOutputs.nothing absent⟩
  · rcases document.metadataAt with
      ⟨entries, metadataAt, sorted⟩ | ⟨noMetadata, absent⟩
    · obtain ⟨others, alsoMetadataAt, alike⟩ :=
        atMetadata.exists_object rfl metadataAt
      exact .inl ⟨others, alsoMetadataAt, sorted.trans alike⟩
    · exact .inr ⟨noMetadata, atMetadata.nothing absent⟩

/-- Objects that agree mean the same. -/
theorem Agree.alike
    {place : Place} (agree : Agree place left right)
    (hasVocabulary : place ≠ .routes ∧ place ≠ .metadata) :
    Alike place left right := by
  cases place with
  | document => exact fun _ => ⟨.of_agree agree, .of_agree agree.symm⟩
  | input => exact fun _ => ⟨.of_agree agree, .of_agree agree.symm⟩
  | output => exact fun _ => ⟨.of_agree agree, .of_agree agree.symm⟩
  | node => exact fun _ => ⟨.of_agree agree, .of_agree agree.symm⟩
  | rule => exact fun _ => ⟨.of_agree agree, .of_agree agree.symm⟩
  | routes => exact absurd rfl hasVocabulary.1
  | metadata => exact absurd rfl hasVocabulary.2

theorem nodeVocabulary?_type
    {type : String} {vocabulary : Vocabulary}
    (described : Place.nodeVocabulary? type = some vocabulary) :
    "type" ∈ vocabulary.known := by
  unfold Place.nodeVocabulary? at described
  split at described
  all_goals
    cases described
    try simp [Vocabulary.known]

theorem vocabulary?_congr
    (place : Place) (same : left.get? "type" = right.get? "type") :
    place.vocabulary? left = place.vocabulary? right := by
  cases place with
  | node => simp only [Place.vocabulary?, same]
  | _ => rfl

/-- Only at a node does the vocabulary depend on the members. -/
theorem vocabulary?_cons
    {place : Place} {key : String} (notType : place = .node → "type" ≠ key)
    (value : Value) (members : Members) :
    place.vocabulary? ((key, value) :: members) =
      place.vocabulary? members := by
  cases place with
  | node =>
      exact vocabulary?_congr .node
        (Members.get?_cons_of_ne (notType rfl) value members)
  | _ => rfl

theorem hasVocabulary_of_described
    {place : Place} {members : Members} {vocabulary : Vocabulary}
    (described : place.vocabulary? members = some vocabulary) :
    place ≠ .routes ∧ place ≠ .metadata := by
  constructor
  · rintro rfl
    cases described
  · rintro rfl
    cases described

theorem agree_of_perm
    (place : Place) (distinct : left.keys.Nodup) (permuted : left.Perm right) :
    Agree place left right := by
  have same := Members.get?_eq_of_perm distinct permuted
  refine ⟨vocabulary?_congr place (same "type"), ?_⟩
  intro vocabulary _ key _
  rw [same key]
  exact .same _

theorem agree_unknown
    {place : Place} {members : Members} {vocabulary : Vocabulary}
    {key : String} (value : Value)
    (described : place.vocabulary? members = some vocabulary)
    (isUnknown : key ∉ vocabulary.known) :
    Agree place members ((key, value) :: members) := by
  have notType : place = .node → "type" ≠ key := by
    rintro rfl rfl
    simp only [Place.vocabulary?] at described
    split at described
    · exact isUnknown (nodeVocabulary?_type described)
    · cases described
  refine ⟨(vocabulary?_cons notType value members).symm, ?_⟩
  intro other alsoDescribed known isKnown
  cases described.symm.trans alsoDescribed
  have different : known ≠ key := by
    rintro rfl
    exact isUnknown isKnown
  rw [Members.get?_cons_of_ne different]
  exact .same _

theorem agree_null
    {place : Place} {members : Members} {vocabulary : Vocabulary}
    {key : String} (described : place.vocabulary? members = some vocabulary)
    (isOptional : key ∈ vocabulary.optional) (absent : key ∉ members.keys) :
    Agree place members ((key, .null) :: members) := by
  have missing := Members.get?_eq_none.mpr absent
  have notType : place = .node → "type" ≠ key := by
    rintro rfl rfl
    simp only [Place.vocabulary?, missing] at described
    cases described
  refine ⟨(vocabulary?_cons notType .null members).symm, ?_⟩
  intro other alsoDescribed known _
  cases described.symm.trans alsoDescribed
  by_cases same : known = key
  · subst same
    rw [missing, Members.get?_cons_self]
    exact .added isOptional
  · rw [Members.get?_cons_of_ne same]
    exact .same _

/-- Objects that differ in the value of one key only. -/
theorem agree_of_head
    {place : Place} {key : String} {value other : Value} {rest : Members}
    (notType : place = .node → "type" ≠ key)
    (agreeAt : ∀ optional,
      AgreeAt place optional key (some value) (some other)) :
    Agree place ((key, value) :: rest) ((key, other) :: rest) := by
  refine ⟨by rw [vocabulary?_cons notType, vocabulary?_cons notType], ?_⟩
  intro vocabulary _ known _
  by_cases same : known = key
  · subst same
    rw [Members.get?_cons_self, Members.get?_cons_self]
    exact agreeAt vocabulary.optional
  · rw [Members.get?_cons_of_ne same, Members.get?_cons_of_ne same]
    exact .same _

theorem RouteDocuments.exists_perm
    {entries others : Members} {routes : List (String × Node)}
    (permuted : entries.Perm others)
    (documents : RouteDocuments entries routes) :
    ∃ given, RouteDocuments others given ∧ routes.Perm given := by
  induction permuted generalizing routes with
  | nil => exact ⟨routes, documents, .refl routes⟩
  | cons entry _ induction =>
      cases documents with
      | cons identifier first rest =>
          obtain ⟨given, later, restPermuted⟩ := induction rest
          exact ⟨_, .cons identifier first later, restPermuted.cons _⟩
  | swap =>
      cases documents with
      | cons firstIdentifier first rest =>
          cases rest with
          | cons secondIdentifier second rest =>
              exact ⟨_,
                .cons secondIdentifier second
                  (.cons firstIdentifier first rest), .swap _ _ _⟩
  | trans _ _ firstInduction secondInduction =>
      obtain ⟨between, betweenDocuments, firstPermuted⟩ :=
        firstInduction documents
      obtain ⟨given, givenDocuments, secondPermuted⟩ :=
        secondInduction betweenDocuments
      exact ⟨given, givenDocuments, firstPermuted.trans secondPermuted⟩

theorem alike_routes_of_perm
    (distinct : left.keys.Nodup) (permuted : left.Perm right) :
    Alike .routes left right := by
  have transfer : ∀ {left right : Members} {routes : List (String × Node)},
      left.keys.Nodup →
      left.Perm right →
      (∃ given, RouteDocuments left given ∧ Sorted.ofList given = routes) →
        ∃ given,
          RouteDocuments right given ∧ Sorted.ofList given = routes := by
    rintro left right _ distinct permuted ⟨given, documents, rfl⟩
    obtain ⟨others, otherDocuments, alsoPermuted⟩ :=
      documents.exists_perm permuted
    have names : (given.map Prod.fst).Nodup := documents.map_fst ▸ distinct
    exact ⟨others, otherDocuments,
      (Sorted.ofList_eq_of_perm names alsoPermuted).symm⟩
  intro routes
  constructor
  · exact transfer distinct permuted
  · exact transfer ((permuted.map Prod.fst).nodup_iff.mp distinct)
      permuted.symm

theorem alike_routes_of_head
    {name : String} {rest : Members} (alike : Alike .node left right) :
    Alike .routes ((name, .object left) :: rest)
      ((name, .object right) :: rest) := by
  have transfer : ∀ {left right : Members} {routes : List (String × Node)},
      Alike .node left right →
        (∃ given, RouteDocuments ((name, .object left) :: rest) given ∧
          Sorted.ofList given = routes) →
        ∃ given, RouteDocuments ((name, .object right) :: rest) given ∧
          Sorted.ofList given = routes := by
    rintro left right _ alike ⟨given, documents, rfl⟩
    cases documents with
    | cons identifier first later =>
        exact ⟨_, .cons identifier ((alike _).mp first) later, rfl⟩
  intro routes
  exact ⟨transfer alike, transfer alike.symm⟩

/-- An edit keeps the meaning of an object. -/
theorem Edit.alike {place : Place} (edit : Edit place left right) :
    Alike place left right := by
  induction edit with
  | @reorder place left right distinct permuted =>
      cases place with
      | routes => exact alike_routes_of_perm distinct permuted
      | metadata => exact Sorted.ofList_eq_of_perm distinct permuted
      | _ => exact (agree_of_perm _ distinct permuted).alike ⟨nofun, nofun⟩
  | unknown value described isUnknown =>
      exact (agree_unknown value described isUnknown).alike
        (hasVocabulary_of_described described)
  | null described isOptional absent =>
      exact (agree_null described isOptional absent).alike
        (hasVocabulary_of_described described)
  | @object place inner key left right rest inside _ induction =>
      have notType : place = .node → "type" ≠ key := by
        rintro rfl rfl
        cases inside
      cases place with
      | routes =>
          cases inside
          exact alike_routes_of_head induction
      | metadata => cases inside
      | _ =>
          exact (agree_of_head notType fun _ => .object inside induction).alike
            ⟨nofun, nofun⟩
  | @item place inner key left right rest front back inside _ induction =>
      have notType : place = .node → "type" ≠ key := by
        rintro rfl rfl
        cases inside
      have itemsAlike :
          (front ++ .object left :: back).Forall₂ (AlikeItems inner)
            (front ++ .object right :: back) := by
        apply List.rel_append
        · exact List.forall₂_same.mpr fun _ _ => .inl rfl
        · apply List.Forall₂.cons (.inr ⟨left, right, rfl, rfl, induction⟩)
          exact List.forall₂_same.mpr fun _ _ => .inl rfl
      cases place with
      | routes => cases inside
      | metadata => cases inside
      | _ =>
          exact (agree_of_head notType fun _ => .items inside itemsAlike).alike
            ⟨nofun, nofun⟩

/-- Documents that differ only in their presentation are documents of the same
specifications. -/
theorem Restated.specMembers_iff
    (restated : Restated left right) (spec : Spec) :
    SpecMembers left spec ↔ SpecMembers right spec := by
  induction restated with
  | rel left right edit => exact edit.alike spec
  | refl members => exact Iff.rfl
  | symm left right _ induction => exact induction.symm
  | trans left between right _ _ first second => exact first.trans second

theorem Restated.exists_accept
    (restated : Restated left right) {limits : Limits} {accepted : Accepted}
    (isAccepted : accept limits (.object left) = .ok accepted) :
    ∃ other, accept limits (.object right) = .ok other ∧
      other.spec = accepted.spec := by
  obtain ⟨⟨_, ⟨⟩, document⟩, admissible⟩ := specDocument_of_accept isAccepted
  apply exists_accept_iff.mpr
  exact ⟨⟨right, rfl, (restated.specMembers_iff accepted.spec).mp document⟩,
    admissible⟩

end Document

namespace Config

open Document

variable {left right : Members}

theorem exists_accept_of_restated
    (config : Config) (restated : Restated left right) {accepted : Accepted}
    (isAccepted : config.accept (.object left) = .ok accepted) :
    ∃ other, config.accept (.object right) = .ok other ∧
      other.spec = accepted.spec := by
  unfold Config.accept at isAccepted
  split at isAccepted
  · cases isAccepted
  · rename_i found
    cases isAccepted
    obtain ⟨other, alsoAccepted, same⟩ := restated.exists_accept found
    exact ⟨other, by rw [Config.accept, alsoAccepted], same⟩

/-- Presentation does not matter: of two documents that differ only in it both
are accepted or none, and then they have the same canonical text and the same
program. -/
theorem compile_eq_of_restated
    (config : Config) (restated : Restated left right) :
    ((∃ accepted, config.accept (.object left) = .ok accepted) ↔
        ∃ accepted, config.accept (.object right) = .ok accepted) ∧
      ∀ first second, config.accept (.object left) = .ok first →
        config.accept (.object right) = .ok second →
          first.spec.canonical = second.spec.canonical ∧
            config.compile (.object left) =
              config.compile (.object right) := by
  have backwards : Restated right left := .symm _ _ restated
  refine ⟨⟨?_, ?_⟩, ?_⟩
  · rintro ⟨accepted, isAccepted⟩
    obtain ⟨other, alsoAccepted, _⟩ :=
      config.exists_accept_of_restated restated isAccepted
    exact ⟨other, alsoAccepted⟩
  · rintro ⟨accepted, isAccepted⟩
    obtain ⟨other, alsoAccepted, _⟩ :=
      config.exists_accept_of_restated backwards isAccepted
    exact ⟨other, alsoAccepted⟩
  · intro first second isFirst isSecond
    obtain ⟨other, isOther, same⟩ :=
      config.exists_accept_of_restated restated isFirst
    cases isSecond.symm.trans isOther
    refine ⟨by rw [same], ?_⟩
    simp only [compile, isFirst, isSecond, ok_bind, emit, same]

/-- The document of `unsortedMembers` with other members at its tree. -/
def nightlyMembers (tree : Members) : Members :=
  ("workflow", .object tree) :: unsortedMembers.tail

/-- Its routes the other way round, with the routes in front. -/
def nightlyTree : Members :=
  [("sub_workflows", .object [
      ("early",
        .object [("type", .string "tool_call"), ("tool", .string "notify"),
          ("output", .null)]),
      ("late",
        .object [("tool", .string "archive"),
          ("params", .object archiveCall.params),
          ("type", .string "tool_call")])]),
    ("default", .string "early"),
    ("rules", .array [.object [("target", .string "late"),
      ("condition", .string "\x7b\x7bcount\x7d\x7d > 3")]]),
    ("type", .string "orchestrator")]

/-- A remark, a description that is null, and the tree written in another
order. -/
def remarkedMembers : Members :=
  ("description", .null) :: ("remark", .string "by hand") ::
    nightlyMembers nightlyTree

theorem restated_remarkedMembers :
    Restated unsortedMembers remarkedMembers := by
  have moved : Edit .document unsortedMembers (nightlyMembers _) :=
    .object rfl (.reorder (by decide +kernel) (.swap _ _ _))
  have turned :
      Edit .document (nightlyMembers _) (nightlyMembers nightlyTree) :=
    .object rfl (.object rfl (.reorder (by decide +kernel) (.swap _ _ _)))
  have remarked : Edit .document (nightlyMembers nightlyTree)
      (("remark", .string "by hand") :: nightlyMembers nightlyTree) :=
    .unknown _ rfl (by decide +kernel)
  have described :
      Edit .document
        (("remark", .string "by hand") :: nightlyMembers nightlyTree)
        remarkedMembers :=
    .null rfl (by decide +kernel) (by decide +kernel)
  exact .trans _ _ _ (.rel _ _ moved) (.trans _ _ _ (.rel _ _ turned)
    (.trans _ _ _ (.rel _ _ remarked) (.rel _ _ described)))

theorem compile_eq_of_restated_remarkedMembers :
    Restated unsortedMembers remarkedMembers ∧
      ∃ first second, Config.accept {} (.object unsortedMembers) = .ok first ∧
        Config.accept {} (.object remarkedMembers) = .ok second ∧
        first.spec.canonical = second.spec.canonical ∧
        Config.compile {} (.object unsortedMembers) =
          Config.compile {} (.object remarkedMembers) := by
  have admissible : sortedSpec.Admissible ({} : Config).limits := by
    unfold Spec.Admissible
    decide +kernel
  obtain ⟨first, isAccepted, _⟩ :=
    exists_accept_iff.mpr ⟨⟨_, rfl, specMembers_unsortedMembers⟩, admissible⟩
  have isFirst : Config.accept {} (.object unsortedMembers) = .ok first := by
    rw [Config.accept, isAccepted]
  obtain ⟨together, same⟩ := compile_eq_of_restated {} restated_remarkedMembers
  obtain ⟨second, isSecond⟩ := together.mp ⟨first, isFirst⟩
  exact ⟨restated_remarkedMembers, first, second, isFirst, isSecond,
    same first second isFirst isSecond⟩

end Config

end Workflow
