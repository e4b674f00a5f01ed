import Workflow.Proofs.Program.CallReading
import Workflow.Proofs.Program.Structure
import Workflow.Proofs.Reference.Mentions

/-!
# What tool calls are read as

The call that a tool call stands for, said of its parameters alone, and that
the text of the call is read as exactly that call: one argument for every
parameter and no other, each with the value that was declared.
-/

namespace Workflow

namespace Template

/-- Puts characters in front of segments, into the literal that comes first if
there is one. -/
def withLead (lead : List Char) : List Segment → List Segment
  | .literal text :: rest =>
      .literal (String.ofList (lead ++ text.toList)) :: rest
  | segments => .literal (String.ofList lead) :: segments

/-- The parts of a text in order: its references, and the longest literals
between them. -/
def parts : List Atom → List Segment
  | [] => []
  | .char c :: rest => withLead [c] (parts rest)
  | .reference target :: rest => .reference target :: parts rest

theorem withLead_withLead
    (first second : List Char) (segments : List Segment) :
    withLead first (withLead second segments) =
      withLead (first ++ second) segments := by
  fun_cases withLead second segments <;> simp [withLead]

theorem segmentsFrom_cons
    (last : Char) (reversed : List Char) (atoms : List Atom) :
    segmentsFrom (last :: reversed) atoms =
      withLead (reversed.reverse ++ [last]) (segmentsFrom [] atoms) := by
  induction atoms generalizing last reversed with
  | nil => simp [segmentsFrom, closeLiteral, withLead]
  | cons atom rest induction =>
      cases atom with
      | char c =>
          rw [segmentsFrom, segmentsFrom, induction, induction c [],
            withLead_withLead, List.reverse_cons, List.reverse_nil,
            List.nil_append]
      | reference target => simp [segmentsFrom, closeLiteral, withLead]

theorem segmentsFrom_nil (atoms : List Atom) :
    segmentsFrom [] atoms = parts atoms := by
  induction atoms with
  | nil => rfl
  | cons atom rest induction =>
      cases atom with
      | char c =>
          rw [segmentsFrom, segmentsFrom_cons, induction, parts,
            List.reverse_nil, List.nil_append]
      | reference target =>
          rw [segmentsFrom, induction, parts]
          rfl

theorem withLead_ne_reference
    (lead : List Char) (segments : List Segment) (target : Reference) :
    withLead lead segments ≠ [.reference target] := by
  fun_cases withLead lead segments <;> simp

theorem eq_nil_of_parts {atoms : List Atom} (none : parts atoms = []) :
    atoms = [] := by
  cases atoms with
  | nil => rfl
  | cons atom rest =>
      cases atom with
      | char c =>
          rw [parts] at none
          revert none
          fun_cases withLead [c] (parts rest) <;> simp
      | reference target => cases none

theorem eq_of_parts_eq_reference
    {atoms : List Atom} {target : Reference}
    (single : parts atoms = [.reference target]) :
    atoms = [.reference target] := by
  cases atoms with
  | nil => cases single
  | cons atom rest =>
      cases atom with
      | char c =>
          exact absurd single (withLead_ne_reference [c] (parts rest) target)
      | reference other =>
          rw [parts] at single
          obtain ⟨same, none⟩ := List.cons.inj single
          rw [Segment.reference.inj same, eq_nil_of_parts none]

theorem filterMap_parts (atoms : List Atom) :
    (parts atoms).filterMap Segment.reference? =
      atoms.filterMap Atom.reference? := by
  rw [← segmentsFrom_nil, filterMap_segmentsFrom]

/-- A text without references is one literal, if it is not empty. -/
theorem parts_of_no_reference {atoms : List Atom}
    (none : atoms.filterMap Atom.reference? = []) :
    parts atoms = closeLiteral (atoms.flatMap Atom.chars).reverse := by
  induction atoms with
  | nil => rfl
  | cons atom rest induction =>
      cases atom with
      | reference target => simp [Atom.reference?] at none
      | char c =>
          have ofRest : rest.filterMap Atom.reference? = [] := by
            simpa [List.filterMap_cons, Atom.reference?] using none
          rw [parts, induction ofRest]
          by_cases empty : rest.flatMap Atom.chars = []
          · simp [empty, closeLiteral, withLead, Atom.chars]
          · simp [empty, closeLiteral, withLead, Atom.chars]

end Template

namespace Program

namespace Term

/-- Fields that consist of digits are integers. -/
def ofField (field : String) : Term :=
  if !field.toList.isEmpty && field.toList.all Char.isDigit then
    .integer (Number.ofDigits field.toList)
  else .text field

/-- The lookup of a root and the fields behind it. -/
def ofReference (reference : Reference) : Term :=
  .application .lookup (.text reference.root :: reference.path.map ofField)

def ofSegment : Template.Segment → Term
  | .literal content => .text content
  | .reference target => ofReference target

/-- A string without references stands for itself, one that is a reference for
the lookup, and any other for its parts put together. -/
def ofString (content : String) : Term :=
  if Template.references content = [] then .text content
  else
    match Template.exactly? content with
    | .some reference => ofReference reference
    | .none =>
        .application .join
          ((Template.parts (Template.atoms content.toList)).map ofSegment)

mutual

/-- A value stands for itself, except for the templates in it. -/
def ofValue : Value → Term
  | .null => .none
  | .bool value => .bool value
  | .number value => ofNumber value
  | .string content => ofString content
  | .array items => .list (ofValues items)
  | .object members => .dictionary (ofMembers members)

def ofValues : List Value → List Term
  | [] => []
  | item :: rest => ofValue item :: ofValues rest

def ofMembers : List (String × Value) → List (String × Term)
  | [] => []
  | (key, value) :: rest => (key, ofValue value) :: ofMembers rest

end

/-- A credential that is given literally is read from the environment. -/
def ofParam (name : String) (value : Value) : Term :=
  if isSecretName name ∧ value.mentions = [] ∧ ¬ value.isNull then
    .application .environment [.text (environmentVariable name)]
  else ofValue value

end Term

/-- The call that a tool call stands for. Parameters that Python cannot take by
name are in the dictionary behind the others. -/
def Call.ofTool (call : ToolCall) : Call :=
  let given :=
    call.params.map fun param => (param.1, Term.ofParam param.1 param.2)
  ⟨"tool_" ++ call.tool, given.filter (!isKeyword ·.1),
    given.filter (isKeyword ·.1)⟩

theorem ofDigits_dropWhile (digits : List Char) :
    Number.ofDigits (digits.dropWhile (· == '0')) =
      Number.ofDigits digits := by
  induction digits with
  | nil => rfl
  | cons c rest induction =>
      by_cases zero : c = '0'
      · subst zero
        rw [List.dropWhile_cons_of_pos (by simp), induction]
        rfl
      · rw [List.dropWhile_cons_of_neg (by simpa using zero)]

theorem isWhole_dropWhile
    {digits : List Char} (allDigits : digits.all Char.isDigit = true)
    (notEmpty : digits.dropWhile (· == '0') ≠ []) :
    Number.isWhole (digits.dropWhile (· == '0')) = true := by
  have significant := List.head?_dropWhile_not (· == '0') digits
  have ofRest : (digits.dropWhile (· == '0')).all Char.isDigit = true := by
    apply List.all_eq_true.mpr
    intro c member
    exact List.all_eq_true.mp allDigits c
      ((List.dropWhile_sublist _).subset member)
  obtain ⟨first, rest, shape⟩ := List.exists_cons_of_ne_nil notEmpty
  rw [shape] at significant ofRest ⊢
  have noZero : first ≠ '0' := by simpa using significant
  simp only [Number.isWhole, ofRest]
  simp [noZero]

theorem spells_fieldExpression (field : String) :
    Spells (fieldExpression field) (Term.ofField field) := by
  simp only [fieldExpression, Term.ofField]
  split
  · rename_i digits
    obtain ⟨_, allDigits⟩ := Bool.and_eq_true_iff.mp digits
    rw [← ofDigits_dropWhile]
    split
    · rename_i zero
      rw [zero]
      exact Lexeme.lexes_digits (by decide : Number.isWhole "0".toList = true)
    · rename_i notEmpty
      have whole := isWhole_dropWhile allDigits notEmpty
      rw [Spells, String.toList_ofList]
      exact Lexeme.lexes_digits whole
  · exact spells_quoted field

theorem spells_lookup (reference : Reference) :
    Spells (lookup reference) (Term.ofReference reference) := by
  have fields : List.Forall₂ Spells (reference.path.map fieldExpression)
      (reference.path.map Term.ofField) := by
    apply List.forall₂_map_left_iff.mpr
    apply List.forall₂_map_right_iff.mpr
    exact List.forall₂_same.mpr fun field _ => spells_fieldExpression field
  exact spells_application .lookup
    (.cons (spells_quoted reference.root) fields)
    (by simp [lookup, Helper.name])

theorem spells_segmentExpression (segment : Template.Segment) :
    Spells (segmentExpression segment) (Term.ofSegment segment) := by
  cases segment with
  | literal text => exact spells_quoted text
  | reference target => exact spells_lookup target

theorem forall₂_segmentExpression (segments : List Template.Segment) :
    List.Forall₂ Spells (segments.map segmentExpression)
      (segments.map Term.ofSegment) := by
  apply List.forall₂_map_left_iff.mpr
  apply List.forall₂_map_right_iff.mpr
  exact List.forall₂_same.mpr fun segment _ => spells_segmentExpression segment

/-- The three ways in which a template is written are those in which a string
is meant. -/
theorem spells_templateExpression (text : String) :
    Spells (templateExpression (Template.parts (Template.atoms text.toList)))
      (Term.ofString text) := by
  by_cases none : Template.references text = []
  · rw [Term.ofString, if_pos none, Template.parts_of_no_reference none,
      Template.flatMap_chars_atoms]
    by_cases empty : text.toList = []
    · have same : text = "" := by simpa using empty
      subst same
      exact spells_quoted ""
    · simp only [Template.closeLiteral, List.isEmpty_reverse, List.isEmpty_iff,
        empty, if_false, List.reverse_reverse, String.ofList_toList]
      exact spells_quoted text
  · rw [Term.ofString, if_neg none]
    cases single : Template.exactly? text with
    | some reference =>
        rw [Template.exactly?_eq_some_iff.mp single]
        exact spells_lookup reference
    | none =>
        have mentioned := Template.filterMap_parts (Template.atoms text.toList)
        cases shape : Template.parts (Template.atoms text.toList) with
        | nil =>
            rw [shape] at mentioned
            exact absurd mentioned.symm none
        | cons segment rest =>
            cases rest with
            | cons next rest =>
                exact spells_application .join (forall₂_segmentExpression _)
                  (by simp [templateExpression, Helper.name])
            | nil =>
                cases segment with
                | literal content =>
                    rw [shape] at mentioned
                    exact absurd mentioned.symm none
                | reference target =>
                    rw [Template.exactly?_eq_some_iff.mpr
                      (Template.eq_of_parts_eq_reference shape)] at single
                    cases single

mutual

theorem spells_valueExpression {value : Value} {text : String}
    (written : valueExpression value = .ok text) :
    Spells text (Term.ofValue value) := by
  match value with
  | .null =>
      obtain rfl := Except.ok.inj written
      exact spells_none
  | .bool value =>
      obtain rfl := Except.ok.inj written
      exact spells_truth value
  | .number value =>
      obtain rfl := Except.ok.inj written
      exact spells_number value
  | .string content =>
      obtain ⟨segments, template, rfl⟩ := map_eq_ok_iff.mp written
      rw [Template.segments_eq_ok template, Template.segmentsFrom_nil]
      exact spells_templateExpression content
  | .array items =>
      obtain ⟨texts, ofItems, rfl⟩ := map_eq_ok_iff.mp written
      exact spells_list (spells_valueExpressions ofItems)
  | .object members =>
      obtain ⟨texts, ofMembers, rfl⟩ := map_eq_ok_iff.mp written
      exact spells_dictionary (spells_memberExpressions ofMembers)

theorem spells_valueExpressions {items : List Value} {texts : List String}
    (written : valueExpressions items = .ok texts) :
    List.Forall₂ Spells texts (Term.ofValues items) := by
  match items with
  | [] =>
      obtain rfl := Except.ok.inj written
      exact .nil
  | item :: rest =>
      obtain ⟨first, ofItem, others⟩ := bind_eq_ok_iff.mp written
      obtain ⟨later, ofRest, joined⟩ := bind_eq_ok_iff.mp others
      obtain rfl := Except.ok.inj joined
      exact .cons (spells_valueExpression ofItem)
        (spells_valueExpressions ofRest)

theorem spells_memberExpressions
    {members : List (String × Value)} {texts : List String}
    (written : memberExpressions members = .ok texts) :
    List.Forall₂ SpellsEntry texts (Term.ofMembers members) := by
  match members with
  | [] =>
      obtain rfl := Except.ok.inj written
      exact .nil
  | (key, value) :: rest =>
      obtain ⟨first, ofValue, others⟩ := bind_eq_ok_iff.mp written
      obtain ⟨later, ofRest, joined⟩ := bind_eq_ok_iff.mp others
      obtain rfl := Except.ok.inj joined
      exact .cons (spellsEntry (spells_valueExpression ofValue))
        (spells_memberExpressions ofRest)

end

theorem spells_environmentRead (name : String) :
    Spells (environmentRead name)
      (.application .environment [.text (environmentVariable name)]) :=
  spells_application .environment
    (.cons (spells_quoted (environmentVariable name)) .nil)
    (environmentRead_toList name)

theorem spells_argumentExpression
    {name : String} {value : Value} {text : String}
    (written : argumentExpression name value = .ok text) :
    Spells text (Term.ofParam name value) := by
  obtain ⟨references, templates, written⟩ := bind_eq_ok_iff.mp written
  rw [Value.references_eq_ok templates] at written
  have same :
      (isSecretName name && value.mentions.isEmpty && !value.isNull) = true ↔
      isSecretName name = true ∧ value.mentions = [] ∧
      ¬ value.isNull = true := by
    simp [and_assoc]
  by_cases credential : isSecretName name = true ∧ value.mentions = [] ∧
    ¬ value.isNull = true
  · rw [if_pos (same.mpr credential)] at written
    obtain rfl := Except.ok.inj written
    rw [Term.ofParam, if_pos credential]
    exact spells_environmentRead name
  · rw [if_neg (mt same.mp credential)] at written
    rw [Term.ofParam, if_neg credential]
    exact spells_valueExpression written

theorem spells_argumentExpressions
    {params : Members} {expressions : List (String × String)}
    (written : argumentExpressions params = .ok expressions)
    (identifiers : ∀ param ∈ params, isIdentifier param.1 = true) :
    List.Forall₂ SpellsArgument expressions
      (params.map fun param => (param.1, Term.ofParam param.1 param.2)) := by
  induction params generalizing expressions with
  | nil =>
      obtain rfl := Except.ok.inj written
      exact .nil
  | cons param params induction =>
      obtain ⟨name, value⟩ := param
      obtain ⟨first, ofParam, others⟩ := bind_eq_ok_iff.mp written
      obtain ⟨later, ofRest, joined⟩ := bind_eq_ok_iff.mp others
      obtain ⟨identifier, restIdentifiers⟩ :=
        List.forall_mem_cons.mp identifiers
      obtain rfl := Except.ok.inj joined
      exact .cons ⟨rfl, identifier, spells_argumentExpression ofParam⟩
        (induction ofRest restIdentifiers)

theorem isName_toolFunction
    {tool : String} (identifier : isIdentifier tool = true) :
    Lexeme.isName ("tool_" ++ tool) = true := by
  have shape :
      ("tool_" ++ tool).toList = 't' :: ("ool_".toList ++ tool.toList) := by
    simp
  rw [Lexeme.isName, shape, Bool.and_eq_true]
  refine ⟨by decide, List.all_eq_true.mpr ?_⟩
  intro c member
  rcases List.mem_append.mp member with front | inTool
  · exact List.all_eq_true.mp (by decide) c front
  · exact isNamePart_of_isFieldChar
      (isFieldChar_of_isIdentifier identifier inTool)

theorem read?_callExpression {call : ToolCall} (lawful : call.Lawful) :
    ∃ text, callExpression call = .ok text ∧
      Call.read? text = some (Call.ofTool call) := by
  obtain ⟨expressions, written, _⟩ := exists_argumentExpressions lawful.params
  have each := spells_argumentExpressions written fun param member =>
    (lawful.params param member).1
  refine ⟨_, ?_, Call.read?_written each (isName_toolFunction lawful.tool)⟩
  simp only [callExpression, written, ok_bind]
  rfl

/-- A call with a quoted text, a parameter under a keyword, a literal
credential, and templates of every kind. -/
def reportCall : ToolCall :=
  ⟨"report", [("title", .string "say \"hi\",\nthen go"),
    ("class",
      .object [("share", .number (.double ⟨false, 0x10000000000000, -53⟩)),
        ("first", .string "\x7b\x7brow.007.id\x7d\x7d")]),
    ("api_key", .string "abc"),
    ("notes", .array [.string "by \x7b\x7brow\x7d\x7d!", .null])], none⟩

theorem lawful_reportCall : reportCall.Lawful := by
  refine ⟨by decide +kernel, ?_, by simp [reportCall]⟩
  simp only [reportCall, List.forall_mem_cons]
  exact ⟨⟨by decide +kernel, [], by decide +kernel⟩,
    ⟨by decide +kernel, [⟨"row", ["007", "id"]⟩], by decide +kernel⟩,
    ⟨by decide +kernel, [], by decide +kernel⟩,
    ⟨by decide +kernel, [⟨"row", []⟩], by decide +kernel⟩, by simp⟩

def reportDocument : Value :=
  .object [("type", .string "tool_call"), ("tool", .string "report"),
    ("params", .object reportCall.params)]

theorem nodeDocument_reportDocument :
    Document.NodeDocument reportDocument (.call reportCall) :=
  .call rfl rfl (.inl rfl) (.inl rfl) lawful_reportCall

/-- The call that binds what the other one refers to. -/
def fetchCall : ToolCall :=
  ⟨"fetch", [], some "row"⟩

def fetchDocument : Value :=
  .object [("type", .string "tool_call"), ("tool", .string "fetch"),
    ("output", .string "row")]

theorem nodeDocument_fetchDocument :
    Document.NodeDocument fetchDocument (.call fetchCall) := by
  have lawful : fetchCall.Lawful :=
    ⟨by decide +kernel, by simp [fetchCall], by decide +kernel⟩
  exact .call rfl rfl (.inr ⟨rfl, .inl rfl⟩) rfl lawful

end Program

end Workflow
