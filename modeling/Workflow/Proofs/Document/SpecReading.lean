import Workflow.Document.SpecReader
import Workflow.Proofs.Document.Lawful

/-!
# Specifications are read by the schema

The schema of whole documents: declarations around a tree.  Reading a document
comes to a specification without errors exactly when the document is one of
that specification.
-/

namespace Workflow

theorem ParamType.ofText?_eq_some {text : String} {type : ParamType} :
    ParamType.ofText? text = some type ↔ text = type.text := by
  constructor
  · intro found
    have same := List.find?_some found
    exact (beq_iff_eq.mp same).symm
  · rintro rfl
    cases type <;> rfl

namespace Document

variable {members : Members} {path : Path}

/-- The value is the document of an input. -/
def InputDocument (value : Value) (input : Input) : Prop :=
  ∃ members : Members, value = .object members ∧
    members.get? "name" = some (.string input.name) ∧
    members.get? "type" = some (.string input.type.text) ∧
    OptionalText members "description" input.description ∧
    input.example? = sample? members

/-- The value is the document of an output. -/
def OutputDocument (value : Value) (output : Output) : Prop :=
  ∃ members : Members, value = .object members ∧
    members.get? "name" = some (.string output.name) ∧
    members.get? "type" = some (.string output.type.text) ∧
    OptionalText members "description" output.description

/-- Names are identifiers, none of them is repeated, and none is among earlier
ones. -/
structure LawfulNames (earlier names : List String) : Prop where
  identifier : ∀ name ∈ names, isIdentifier name = true
  distinct : names.Nodup
  fresh : ∀ name ∈ names, name ∉ earlier

@[simp] theorem lawfulNames_nil {earlier : List String} :
    LawfulNames earlier [] :=
  ⟨nofun, .nil, nofun⟩

theorem lawfulNames_cons {earlier names : List String} {name : String} :
    LawfulNames earlier (name :: names) ↔
      isIdentifier name = true ∧ name ∉ earlier ∧
      LawfulNames (name :: earlier) names := by
  constructor
  · intro lawful
    obtain ⟨identifier, identifiers⟩ :=
      List.forall_mem_cons.mp lawful.identifier
    obtain ⟨fresh, freshes⟩ := List.forall_mem_cons.mp lawful.fresh
    obtain ⟨different, distinct⟩ := List.nodup_cons.mp lawful.distinct
    refine ⟨identifier, fresh, identifiers, distinct, ?_⟩
    intro other member
    simp only [List.mem_cons, not_or]
    refine ⟨?_, freshes other member⟩
    rintro rfl
    exact different member
  · rintro ⟨identifier, fresh, lawful⟩
    refine ⟨List.forall_mem_cons.mpr ⟨identifier, lawful.identifier⟩,
      List.nodup_cons.mpr ⟨?_, lawful.distinct⟩,
      List.forall_mem_cons.mpr ⟨fresh, ?_⟩⟩
    · intro member
      exact lawful.fresh name member List.mem_cons_self
    · intro other member earlierMember
      exact lawful.fresh other member (List.mem_cons_of_mem name earlierMember)

@[simp] theorem gives_readType {type? : Option ParamType} :
    (readType members path).Gives type? ↔
      ∃ type : ParamType, members.get? "type" = some (.string type.text) ∧
        type? = some type := by
  simp only [readType, Checked.gives_bind, gives_requiredText, ↓existsAndEq,
    and_true]
  constructor
  · rintro ⟨text, typeAt, rest⟩
    cases known : ParamType.ofText? text with
    | none => simp [known, Finding.severity] at rest
    | some type =>
        obtain rfl := ParamType.ofText?_eq_some.mp known
        exact ⟨type, typeAt, by simpa [known] using rest⟩
  · rintro ⟨type, typeAt, rfl⟩
    refine ⟨type.text, typeAt, ?_⟩
    simp [ParamType.ofText?_eq_some.mpr rfl]

theorem gives_readInput
    {earlier : List String} {value : Value} {input? : Option Input} :
    (readInput earlier value path).Gives input? ↔
      ∃ input, InputDocument value input ∧ isIdentifier input.name = true ∧
        input.name ∉ earlier ∧ input? = some input := by
  simp only [readInput, Checked.gives_bind, gives_members?, gives_requiredText,
    gives_recordName, gives_recordDuplicate, gives_readType,
    gives_optionalText, gives_recordUnknownKeys,
    Checked.gives_ite_warning .secretFlag rfl,
    Checked.gives_ite_warning (.secretExample _) rfl, Checked.gives_pure,
    ↓existsAndEq, and_true, true_and, exists_const, Option.getD_some,
    Option.join_some]
  constructor
  · rintro ⟨members, rfl, name, nameAt, identifier, fresh, type, typeAt,
      description, descriptionAt, rfl⟩
    exact ⟨⟨name, type, description, sample? members⟩,
      ⟨members, rfl, nameAt, typeAt, descriptionAt, rfl⟩, identifier, fresh,
      rfl⟩
  · rintro ⟨input, ⟨members, rfl, nameAt, typeAt, descriptionAt, sample⟩,
      identifier, fresh, rfl⟩
    refine ⟨members, rfl, _, nameAt, identifier, fresh, _, typeAt, _,
      descriptionAt, ?_⟩
    rw [← sample]

theorem gives_readOutput {earlier : List String} {value : Value}
    {result : Option String × Option Output} :
    (readOutput earlier value path).Gives result ↔
      ∃ output, OutputDocument value output ∧ isIdentifier output.name = true ∧
        output.name ∉ earlier ∧ result = (some output.name, some output) := by
  simp only [readOutput, Checked.gives_bind, gives_members?,
    gives_requiredText, gives_recordName, gives_recordDuplicate,
    gives_readType, gives_optionalText, gives_recordUnknownKeys,
    Checked.gives_pure, ↓existsAndEq, and_true, true_and, exists_const,
    Option.join_some]
  constructor
  · rintro ⟨members, rfl, name, nameAt, identifier, fresh, type, typeAt,
      description, descriptionAt, rfl⟩
    exact ⟨⟨name, type, description⟩,
      ⟨members, rfl, nameAt, typeAt, descriptionAt⟩, identifier, fresh, rfl⟩
  · rintro ⟨output, ⟨members, rfl, nameAt, typeAt, descriptionAt⟩, identifier,
      fresh, rfl⟩
    exact ⟨members, rfl, _, nameAt, identifier, fresh, _, typeAt, _,
      descriptionAt, rfl⟩

theorem gives_readInputsFrom
    {items : List Value} {position : Nat} {earlier : List String}
    {inputs? : Option (List Input)} :
    (readInputsFrom position earlier items).Gives inputs? ↔
      ∃ inputs, items.Forall₂ InputDocument inputs ∧
        LawfulNames earlier (inputs.map Input.name) ∧
        inputs? = some inputs := by
  induction items generalizing position earlier inputs? with
  | nil => simp [readInputsFrom]
  | cons item items induction =>
      simp only [readInputsFrom, Checked.gives_bind, gives_readInput,
        induction, ↓existsAndEq, and_true, Checked.gives_pure, Option.pure_def,
        Option.bind_eq_bind, Option.bind_some, Option.toList_some,
        List.map_cons, List.map_nil, List.cons_append, List.nil_append]
      constructor
      · rintro ⟨input, ⟨document, identifier, fresh⟩, inputs,
          ⟨documents, lawful⟩, rfl⟩
        exact ⟨input :: inputs, .cons document documents,
          lawfulNames_cons.mpr ⟨identifier, fresh, lawful⟩, rfl⟩
      · rintro ⟨_, documents, lawful, rfl⟩
        cases documents with
        | cons document documents =>
            obtain ⟨identifier, fresh, lawful⟩ := lawfulNames_cons.mp lawful
            exact ⟨_, ⟨document, identifier, fresh⟩, _, ⟨documents, lawful⟩,
              rfl⟩

theorem gives_readOutputsFrom
    {items : List Value} {position : Nat} {earlier : List String}
    {outputs : List Output} :
    (readOutputsFrom position earlier items).Gives outputs ↔
      items.Forall₂ OutputDocument outputs ∧
      LawfulNames earlier (outputs.map Output.name) := by
  induction items generalizing position earlier outputs with
  | nil => simp +contextual [readOutputsFrom]
  | cons item items induction =>
      simp only [readOutputsFrom, Checked.gives_bind, gives_readOutput,
        induction, ↓existsAndEq, and_true, Checked.gives_pure,
        Option.toList_some, List.cons_append, List.nil_append]
      constructor
      · rintro ⟨output, ⟨document, identifier, fresh⟩, outputs,
          ⟨documents, lawful⟩, rfl⟩
        exact ⟨.cons document documents,
          lawfulNames_cons.mpr ⟨identifier, fresh, lawful⟩⟩
      · rintro ⟨documents, lawful⟩
        cases documents with
        | cons document documents =>
            obtain ⟨identifier, fresh, lawful⟩ := lawfulNames_cons.mp lawful
            exact ⟨_, ⟨document, identifier, fresh⟩, _, ⟨documents, lawful⟩,
              rfl⟩

/-- The inputs of a document. -/
def InputsAt (members : Members) (inputs : List Input) : Prop :=
  ∃ items, members.get? "inputs" = some (.array items) ∧
    items.Forall₂ InputDocument inputs

/-- The outputs of a document, which may be absent or null. -/
def OutputsAt (members : Members) (outputs : List Output) : Prop :=
  (∃ items, members.get? "outputs" = some (.array items) ∧
      items.Forall₂ OutputDocument outputs) ∨
    outputs = [] ∧
    (members.get? "outputs" = none ∨ members.get? "outputs" = some .null)

/-- The metadata of a document, which may be absent or null. -/
def MetadataAt (members metadata : Members) : Prop :=
  (∃ entries, members.get? "metadata" = some (.object entries) ∧
      metadata = Sorted.ofList entries) ∨
    metadata = [] ∧
    (members.get? "metadata" = none ∨ members.get? "metadata" = some .null)

@[simp] theorem gives_readInputs {inputs? : Option (List Input)} :
    (readInputs members).Gives inputs? ↔
      ∃ inputs,
        InputsAt members inputs ∧ LawfulNames [] (inputs.map Input.name) ∧
        inputs? = some inputs := by
  unfold readInputs InputsAt
  cases members.get? "inputs" with
  | none => simp [Finding.severity]
  | some value =>
      cases value with
      | array items => simp [gives_readInputsFrom]
      | _ => simp [Finding.severity]

@[simp] theorem gives_readOutputs {outputs : List Output} :
    (readOutputs members).Gives outputs ↔
      OutputsAt members outputs ∧
      LawfulNames [] (outputs.map Output.name) := by
  unfold readOutputs OutputsAt
  cases members.get? "outputs" with
  | none => simp +contextual
  | some value =>
      cases value with
      | null => simp +contextual
      | array items => simp [gives_readOutputsFrom]
      | _ => simp [Finding.severity]

@[simp] theorem gives_readMetadata {metadata : Members} :
    (readMetadata members).Gives metadata ↔ MetadataAt members metadata := by
  unfold readMetadata MetadataAt
  cases members.get? "metadata" with
  | none => simp
  | some value =>
      cases value with
      | null => simp
      | object entries => simp
      | _ => simp [Finding.severity]

@[simp] theorem gives_readName {name : String} :
    (readName members).Gives name ↔
      members.get? "name" = some (.string name) ∧
      isIdentifier name = true := by
  simp [readName]

@[simp] theorem gives_readVersion {version : String} :
    (readVersion members).Gives version ↔
      members.get? "version" = some (.string version) ∧
      isVersion version = true := by
  simp only [readVersion, Checked.gives_bind, gives_requiredText, ↓existsAndEq,
    and_true]
  constructor
  · rintro ⟨text, versionAt, rest⟩
    cases valid : isVersion text with
    | false => simp [valid, Finding.severity] at rest
    | true =>
        obtain rfl : version = text := by simpa [valid] using rest
        exact ⟨versionAt, valid⟩
  · rintro ⟨versionAt, valid⟩
    exact ⟨version, versionAt, by simp [valid]⟩

/-- The members are those of the document of a specification without errors. -/
structure SpecMembers (members : Members) (spec : Spec) : Prop where
  nameAt : members.get? "name" = some (.string spec.name)
  name : isIdentifier spec.name = true
  descriptionAt :
      ∃ description, OptionalText members "description" description ∧
    spec.description = description.getD ""
  versionAt : members.get? "version" = some (.string spec.version)
  version : isVersion spec.version = true
  inputsAt : InputsAt members spec.inputs
  inputs : LawfulNames [] (spec.inputs.map Input.name)
  outputsAt : OutputsAt members spec.outputs
  outputs : LawfulNames [] (spec.outputs.map Output.name)
  metadataAt : MetadataAt members spec.metadata
  workflowAt : ∃ value,
      members.get? "workflow" = some value ∧ NodeDocument value spec.workflow

/-- The value is the document of a specification without errors. -/
def SpecDocument (document : Value) (spec : Spec) : Prop :=
  ∃ members, document = .object members ∧ SpecMembers members spec

/-- Reading a document comes to a specification without errors exactly when the
value is a document of that specification. -/
theorem gives_readSpec {document : Value} {spec? : Option Spec} :
    (readSpec document).Gives spec? ↔
      ∃ spec, SpecDocument document spec ∧ spec? = some spec := by
  have below :
      ∀ members : Members, ∀ value : Value, sizeOf value < sizeOf members →
      ReadsBySchema value := fun _ value _ => readsBySchema value
  simp only [readSpec, Checked.gives_bind, gives_members?,
    gives_recordUnknownKeys, gives_readName, gives_optionalText,
    gives_readVersion, gives_readInputs, gives_readOutputs, gives_readMetadata,
    gives_readChild (below _), Checked.gives_pure, ↓existsAndEq, and_true,
    true_and, exists_const, Option.pure_def, Option.bind_eq_bind,
    Option.bind_some, Option.join_some]
  constructor
  · rintro ⟨members, rfl, name, ⟨nameAt, isName⟩, description, descriptionAt,
      version, ⟨versionAt, valid⟩, inputs, ⟨inputsAt, lawfulInputs⟩, outputs,
      ⟨outputsAt, lawfulOutputs⟩, metadata, metadataAt, value, workflow,
      ⟨workflowAt, tree⟩, rfl⟩
    refine ⟨⟨name, description.getD "", version, inputs, outputs, workflow,
        metadata⟩, ⟨members, rfl, ?_⟩, rfl⟩
    exact ⟨nameAt, isName, ⟨description, descriptionAt, rfl⟩, versionAt, valid,
      inputsAt, lawfulInputs, outputsAt, lawfulOutputs, metadataAt, value,
      workflowAt, tree⟩
  · rintro ⟨spec, ⟨members, rfl, document⟩, rfl⟩
    obtain ⟨description, descriptionAt, given⟩ := document.descriptionAt
    obtain ⟨value, workflowAt, tree⟩ := document.workflowAt
    refine ⟨members, rfl, _, ⟨document.nameAt, document.name⟩, description,
      descriptionAt, _, ⟨document.versionAt, document.version⟩, _,
      ⟨document.inputsAt, document.inputs⟩, _,
      ⟨document.outputsAt, document.outputs⟩, _, document.metadataAt, value, _,
      ⟨workflowAt, tree⟩, ?_⟩
    rw [← given]

end Document

end Workflow
