import Workflow.Program.Expression
import Workflow.Proofs.Reference.Atoms

/-!
# The text of a lookup

How the lookup of a well-formed reference is written, character by character:
nothing in a root or a field has to be escaped, and a field of digits stands
there as a number.
-/

namespace Workflow

namespace Text

theorem joined_toList (separator part : String) (rest : List String) :
    (joined separator (part :: rest)).toList =
      part.toList ++
        rest.flatMap fun other => separator.toList ++ other.toList := by
  induction rest generalizing part with
  | nil => simp [joined]
  | cons other rest induction => simp [joined, induction]

theorem escape_of_isFieldChar
    {c : Char} (fieldChar : Reference.isFieldChar c = true) :
    escape c = [c] := by
  have different :
      ∀ other, Reference.isFieldChar other = false → c ≠ other := by
    rintro other noFieldChar rfl
    simp [fieldChar] at noFieldChar
  have printable : ¬c.toNat < 0x20 := by
    have range := Reference.toNat_of_isFieldChar fieldChar
    omega
  simp [escape, different '"' rfl, different '\\' rfl, different '\x08' rfl,
    different '\t' rfl, different '\n' rfl, different '\x0c' rfl,
    different '\r' rfl, printable]

theorem flatMap_escape
    {text : List Char}
    (fieldChars : ∀ c ∈ text, Reference.isFieldChar c = true) :
    text.flatMap escape = text := by
  induction text with
  | nil => rfl
  | cons c text induction =>
      have here := escape_of_isFieldChar (fieldChars c List.mem_cons_self)
      have later :=
        induction fun d member => fieldChars d (List.mem_cons_of_mem c member)
      simp [here, later]

theorem quoted_toList_of_isFieldChar {text : String}
    (fieldChars : ∀ c ∈ text.toList, Reference.isFieldChar c = true) :
    (quoted text).toList = '"' :: (text.toList ++ ['"']) := by
  simp [quoted, quotedChars, flatMap_escape fieldChars]

end Text

namespace Program

/-- A field is written as a number or between quotes. -/
theorem fieldExpression_toList {field : String} (notEmpty : field.toList ≠ [])
    (fieldChars : ∀ c ∈ field.toList, Reference.isFieldChar c = true) :
    (field.toList.all Char.isDigit = true ∧
      (fieldExpression field).toList ≠ [] ∧
        ∀ c ∈ (fieldExpression field).toList, c.isDigit = true) ∨
      (field.toList.all Char.isDigit = false ∧
        (fieldExpression field).toList = '"' :: (field.toList ++ ['"'])) := by
  cases digits : field.toList.all Char.isDigit with
  | false =>
      refine .inr ⟨rfl, ?_⟩
      rw [fieldExpression]
      simp only [digits, Bool.and_false, Bool.false_eq_true, if_false]
      exact Text.quoted_toList_of_isFieldChar fieldChars
  | true =>
      refine .inl ⟨rfl, ?_⟩
      have notEmpty' : field.toList.isEmpty = false := by simpa using notEmpty
      simp only [fieldExpression, digits, notEmpty', Bool.not_false,
        Bool.and_true, if_true]
      split
      · simp
      · rename_i significant
        have fromField :
            ∀ c ∈ field.toList.dropWhile (· == '0'), c ∈ field.toList :=
          fun c member => (List.dropWhile_sublist _).subset member
        refine ⟨by simpa using significant, ?_⟩
        intro c member
        exact List.all_eq_true.mp digits c
          (fromField c (by simpa using member))

/-- A lookup up to the parenthesis that opens its arguments. -/
def lookupStart : List Char :=
  ['c', 't', 'x', '.', 'g', 'e', 't', '(']

theorem lookup_toList
    {reference : Reference} (wellFormed : reference.WellFormed) :
    (lookup reference).toList =
      lookupStart ++ '"' :: (reference.root.toList ++ '"' ::
      ((reference.path.flatMap fun field =>
          ',' :: ' ' :: (fieldExpression field).toList) ++
        [')'])) := by
  have root :=
    Text.quoted_toList_of_isFieldChar wellFormed.isFieldChar_of_mem_root
  simp [lookup, Text.commaSeparated, Text.joined_toList, root,
    List.flatMap_map, lookupStart]

theorem isFieldChar_of_isDigit {c : Char} (digit : c.isDigit = true) :
    Reference.isFieldChar c = true := by
  simp [Reference.isFieldChar, Char.isAlphanum, digit]

/-- The characters that lookups are written with, beside those of roots and
fields. -/
theorem mem_lookup
    {reference : Reference} (wellFormed : reference.WellFormed) {c : Char}
    (member : c ∈ (lookup reference).toList) :
    Reference.isFieldChar c = true ∨ c ∈ ['.', '(', '"', ',', ' ', ')'] := by
  simp only [lookup_toList wellFormed, lookupStart, List.mem_append,
    List.mem_cons, List.mem_flatMap, List.not_mem_nil, or_false] at member
  rcases member with
    start | rfl | inRoot | rfl | ⟨field, inPath, rfl | rfl | inField⟩ | rfl
  · rcases start with rfl | rfl | rfl | rfl | rfl | rfl | rfl | rfl <;> decide
  · decide
  · exact .inl (wellFormed.isFieldChar_of_mem_root c inRoot)
  · decide
  · decide
  · decide
  · obtain ⟨notEmpty, fieldChars⟩ := wellFormed.fields field inPath
    rcases fieldExpression_toList notEmpty fieldChars with
      ⟨_, _, digits⟩ | ⟨_, quoted⟩
    · exact .inl (isFieldChar_of_isDigit (digits c inField))
    · simp only [quoted, List.mem_cons, List.mem_append, List.not_mem_nil,
        or_false] at inField
      rcases inField with rfl | inside | rfl
      · simp
      · exact .inl (fieldChars c inside)
      · simp
  · decide

end Program

end Workflow
