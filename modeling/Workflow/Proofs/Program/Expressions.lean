import Workflow.Program.Source
import Workflow.Proofs.Program.Lexing
import Workflow.Proofs.Program.Lookup
import Workflow.Proofs.Value.Tokens

/-!
# Emitted expressions are complete

Every expression that goes into a program is a complete one, whatever the
strings, keys and numbers in it are; and a value whose strings are templates
has one.
-/

namespace Workflow.Program

open SelfCheck

theorem expression_quoted (text : String) :
    Expression (Text.quoted text).toList := by
  rw [Text.quoted, String.toList_ofList]
  exact expression_quotedChars text.toList

/-- Texts that mean nothing to the machine. -/
def IsPlain (text : String) : Prop :=
  text.toList.all isPlain = true

instance (text : String) : Decidable (IsPlain text) :=
  inferInstanceAs (Decidable (text.toList.all isPlain = true))

theorem IsPlain.append
    {left right : String} (ofLeft : IsPlain left) (ofRight : IsPlain right) :
    IsPlain (left ++ right) := by
  rw [IsPlain, String.toList_append, List.all_append, Bool.and_eq_true]
  exact ⟨ofLeft, ofRight⟩

/-- A function applied to its arguments. -/
theorem sealed_application
    (front : String) {text : String} {arguments : List Char}
    (plain : IsPlain front) (complete : Expression arguments)
    (shape : text.toList = front.toList ++ '(' :: (arguments ++ [')'])) :
    Sealed text.toList := by
  rw [shape]
  exact (sealed_of_isPlain plain).append
    (sealed_brackets (by simp [Pair]) complete)

theorem expression_joined_comma {items : List String}
    (each : ∀ item ∈ items, Expression item.toList) :
    Expression (Text.commaSeparated items).toList := by
  have comma : Sealed ", ".toList := sealed_of_isPlain (by decide)
  unfold Text.commaSeparated
  fun_induction Text.joined ", " items with
  | case1 => exact (sealed_of_isPlain (by simp)).expression
  | case2 item => exact each item List.mem_cons_self
  | case3 item rest _ induction =>
      obtain ⟨first, others⟩ := List.forall_mem_cons.mp each
      rw [String.toList_append, String.toList_append]
      exact (first.append_sealed comma (by simp)
          (by simp [Unquoted])).append_expression (induction others)

theorem sealed_listExpression
    {items : List String} (each : ∀ item ∈ items, Expression item.toList) :
    Sealed (listExpression items).toList := by
  have shape : (listExpression items).toList =
      '[' :: ((Text.commaSeparated items).toList ++ [']']) := by
    simp [listExpression]
  rw [shape]
  exact sealed_brackets (by simp [Pair]) (expression_joined_comma each)

theorem sealed_dictionaryExpression {entries : List String}
    (each : ∀ entry ∈ entries, Expression entry.toList) :
    Sealed (dictionaryExpression entries).toList := by
  have shape : (dictionaryExpression entries).toList =
      '\x7b' :: ((Text.commaSeparated entries).toList ++ ['\x7d']) := by
    simp [dictionaryExpression]
  rw [shape]
  exact sealed_brackets (by simp [Pair]) (expression_joined_comma each)

theorem expression_entry
    {key value : String} (complete : Expression value.toList) :
    Expression (entry key value).toList := by
  have colon : Sealed ": ".toList := sealed_of_isPlain (by decide)
  rw [entry, String.toList_append, String.toList_append]
  have front :=
    (expression_quoted key).append_sealed colon (by simp) (by simp [Unquoted])
  exact front.append_expression complete

theorem isPlain_of_isFieldChar
    {c : Char} (fieldChar : Reference.isFieldChar c = true) :
    isPlain c = true := by
  have different :
      ∀ other, Reference.isFieldChar other = false → c ≠ other := by
    rintro other noFieldChar rfl
    simp [fieldChar] at noFieldChar
  have noControl : Text.isControl c = false := by
    have range := Reference.toNat_of_isFieldChar fieldChar
    simp [Text.isControl]
    omega
  simp [isPlain, different '#' rfl, different '\'' rfl, different '"' rfl,
    different '(' rfl, different '[' rfl, different '\x7b' rfl,
    different ')' rfl, different ']' rfl, different '\x7d' rfl, noControl]

theorem isPlain_of_isNumberChar
    {c : Char} (numberChar : Token.isNumberChar c = true) :
    isPlain c = true := by
  simp only [Token.isNumberChar, Bool.or_eq_true, beq_iff_eq] at numberChar
  rcases numberChar with ((((digit | rfl) | rfl) | rfl) | rfl) | rfl
  · exact isPlain_of_isFieldChar (isFieldChar_of_isDigit digit)
  · rfl
  · rfl
  · rfl
  · rfl
  · rfl

theorem sealed_number (number : Number) : Sealed number.render.toList := by
  obtain ⟨first, rest, shape, start, inRest⟩ := number.chars_eq_cons
  rw [Number.render, String.toList_ofList, shape]
  apply sealed_of_isPlain
  apply List.all_eq_true.mpr
  intro c member
  apply isPlain_of_isNumberChar
  rcases List.mem_cons.mp member with rfl | behind
  · simp only [Bool.or_eq_true, beq_iff_eq] at start
    rcases start with digit | rfl
    · exact Number.isNumberChar_of_isDigit digit
    · rfl
  · exact inRest c behind

mutual

theorem expression_literal (value : Value) :
    Expression (literal value).toList := by
  match value with
  | .null => exact (sealed_of_isPlain (by decide)).expression
  | .bool true => exact (sealed_of_isPlain (by decide)).expression
  | .bool false => exact (sealed_of_isPlain (by decide)).expression
  | .number value => exact (sealed_number value).expression
  | .string text => exact expression_quoted text
  | .array items =>
      exact (sealed_listExpression (expression_literalList items)).expression
  | .object members =>
      exact (sealed_dictionaryExpression
          (expression_literalMembers members)).expression

theorem expression_literalList (items : List Value) :
    ∀ item ∈ literalList items, Expression item.toList := by
  match items with
  | [] => exact nofun
  | item :: rest =>
      exact List.forall_mem_cons.mpr
        ⟨expression_literal item, expression_literalList rest⟩

theorem expression_literalMembers (members : List (String × Value)) :
    ∀ entry ∈ literalMembers members, Expression entry.toList := by
  match members with
  | [] => exact nofun
  | (key, value) :: rest =>
      exact List.forall_mem_cons.mpr
        ⟨expression_entry (expression_literal value),
          expression_literalMembers rest⟩

end

theorem expression_fieldExpression (field : String) :
    Expression (fieldExpression field).toList := by
  simp only [fieldExpression]
  split
  · rename_i digits
    obtain ⟨_, allDigits⟩ := Bool.and_eq_true_iff.mp digits
    split
    · exact (sealed_of_isPlain (by decide)).expression
    · rw [String.toList_ofList]
      apply (sealed_of_isPlain _).expression
      apply List.all_eq_true.mpr
      intro c member
      have inField : c ∈ field.toList :=
        (List.dropWhile_sublist _).subset member
      have digit := List.all_eq_true.mp allDigits c inField
      exact isPlain_of_isFieldChar (isFieldChar_of_isDigit digit)
  · exact expression_quoted field

theorem sealed_lookup (reference : Reference) :
    Sealed (lookup reference).toList := by
  have arguments : ∀ item ∈ Text.quoted reference.root :: reference.path.map
      fieldExpression, Expression item.toList := by
    refine List.forall_mem_cons.mpr ⟨expression_quoted reference.root, ?_⟩
    intro item member
    obtain ⟨field, _, rfl⟩ := List.mem_map.mp member
    exact expression_fieldExpression field
  exact sealed_application "ctx.get" (by decide)
    (expression_joined_comma arguments) (by simp [lookup])

theorem expression_segmentExpression (segment : Template.Segment) :
    Expression (segmentExpression segment).toList := by
  cases segment with
  | literal text => exact expression_quoted text
  | reference target => exact (sealed_lookup target).expression

theorem expression_templateExpression (segments : List Template.Segment) :
    Expression (templateExpression segments).toList := by
  have each :
      ∀ item ∈ segments.map segmentExpression, Expression item.toList := by
    intro item member
    obtain ⟨segment, _, rfl⟩ := List.mem_map.mp member
    exact expression_segmentExpression segment
  fun_cases templateExpression segments with
  | case1 => exact expression_quoted ""
  | case2 segment => exact expression_segmentExpression segment
  | case3 =>
      exact (sealed_application "_text" (by decide)
          (expression_joined_comma each) (by simp)).expression

mutual

/-- A value whose strings are templates has an expression, and a complete
one. -/
theorem exists_valueExpression {value : Value} {references : List Reference}
    (templates : value.references = .ok references) :
    ∃ text, valueExpression value = .ok text ∧ Expression text.toList := by
  match value with
  | .null => exact ⟨_, rfl, expression_literal .null⟩
  | .bool value => exact ⟨_, rfl, expression_literal (.bool value)⟩
  | .number value => exact ⟨_, rfl, expression_literal (.number value)⟩
  | .string text =>
      obtain ⟨segments, isTemplate, _⟩ := map_eq_ok_iff.mp templates
      exact ⟨_, map_eq_ok_iff.mpr ⟨segments, isTemplate, rfl⟩,
        expression_templateExpression segments⟩
  | .array items =>
      obtain ⟨texts, written, each⟩ := exists_valueExpressions templates
      exact ⟨_, map_eq_ok_iff.mpr ⟨texts, written, rfl⟩,
        (sealed_listExpression each).expression⟩
  | .object members =>
      obtain ⟨texts, written, each⟩ := exists_memberExpressions templates
      exact ⟨_, map_eq_ok_iff.mpr ⟨texts, written, rfl⟩,
        (sealed_dictionaryExpression each).expression⟩

theorem exists_valueExpressions
    {items : List Value} {references : List Reference}
    (templates : Value.referencesList items = .ok references) :
    ∃ texts, valueExpressions items = .ok texts ∧
      ∀ text ∈ texts, Expression text.toList := by
  match items with
  | [] => exact ⟨[], rfl, nofun⟩
  | item :: rest =>
      obtain ⟨_, ofItem, templates⟩ := bind_eq_ok_iff.mp templates
      obtain ⟨_, ofRest, _⟩ := bind_eq_ok_iff.mp templates
      obtain ⟨first, firstWritten, complete⟩ := exists_valueExpression ofItem
      obtain ⟨later, laterWritten, each⟩ := exists_valueExpressions ofRest
      refine ⟨first :: later, ?_, List.forall_mem_cons.mpr ⟨complete, each⟩⟩
      simp only [valueExpressions, firstWritten, laterWritten, ok_bind]
      rfl

theorem exists_memberExpressions
    {members : List (String × Value)} {references : List Reference}
    (templates : Value.referencesMembers members = .ok references) :
    ∃ texts, memberExpressions members = .ok texts ∧
      ∀ text ∈ texts, Expression text.toList := by
  match members with
  | [] => exact ⟨[], rfl, nofun⟩
  | (key, value) :: rest =>
      obtain ⟨_, ofValue, templates⟩ := bind_eq_ok_iff.mp templates
      obtain ⟨_, ofRest, _⟩ := bind_eq_ok_iff.mp templates
      obtain ⟨first, firstWritten, complete⟩ := exists_valueExpression ofValue
      obtain ⟨later, laterWritten, each⟩ := exists_memberExpressions ofRest
      refine ⟨entry key first :: later, ?_,
        List.forall_mem_cons.mpr ⟨expression_entry complete, each⟩⟩
      simp only [memberExpressions, firstWritten, laterWritten, ok_bind]
      rfl

end

end Workflow.Program
