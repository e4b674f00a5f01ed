import Workflow.Proofs.Condition.Words
import Workflow.Proofs.Program.Lookup

/-!
# Reading lookups

What the machine for conditions makes of a lookup that was written in place of
a reference: outside of literals and between single quotes it leaves no trace,
between double quotes its own quotes close the literal around it, so that its
root and its fields come to stand outside.
-/

namespace Workflow.Condition.Scan

open Program

variable {allowed : List String} {brackets : List Char}

theorem outcome_plain {quote : Char} {text : List Char}
    (plain : ∀ c ∈ text, c ≠ '\\' ∧ c ≠ quote) (more : List Char) :
    outcome allowed ⟨.quoted quote, brackets⟩ (text ++ more) =
      outcome allowed ⟨.quoted quote, brackets⟩ more := by
  induction text with
  | nil => rfl
  | cons c text induction =>
      have here := plain c List.mem_cons_self
      have step : step allowed ⟨.quoted quote, brackets⟩ c =
          .ok ⟨.quoted quote, brackets⟩ := by
        simp [Scan.step, here]
      rw [List.cons_append, outcome_cons_of_step step]
      exact induction fun d member => plain d (List.mem_cons_of_mem c member)

theorem outcome_word
    {word more : List Char} (parts : ∀ c ∈ word, isWordPart c = true)
    (boundary : ∀ c, more.head? = some c → isWordPart c = false) :
    outcome allowed ⟨.code false, brackets⟩ (word ++ more) = (do
      judge allowed word
      outcome allowed ⟨.code false, brackets⟩ more) := by
  have taken : more.takeWhile isWordPart = [] := by
    cases more with
    | nil => rfl
    | cons c more => simp [boundary c rfl]
  have left : more.dropWhile isWordPart = more := by
    cases more with
    | nil => rfl
    | cons c more => simp [boundary c rfl]
  rw [outcome_code, List.takeWhile_append_of_pos parts,
    List.dropWhile_append_of_pos parts, taken, left, List.append_nil]

theorem ne_of_isFieldChar
    {c : Char} (fieldChar : Reference.isFieldChar c = true) :
    c ≠ '\\' ∧ c ≠ '"' := by
  constructor <;> rintro rfl <;> revert fieldChar <;> decide

theorem judge_digits
    {digits : List Char} (allDigits : ∀ c ∈ digits, c.isDigit = true) :
    judge allowed digits = .ok () := by
  cases digits with
  | nil => rfl
  | cons c digits => simp [judge, allDigits c List.mem_cons_self]

/-- The fields of a lookup, each behind a comma. -/
abbrev fieldArguments (path : List String) : List Char :=
  path.flatMap fun field => ',' :: ' ' :: (fieldExpression field).toList

theorem boundary_fieldArguments
    (path : List String) (more : List Char) (c : Char)
    (first : (fieldArguments path ++ ')' :: more).head? = some c) :
    isWordPart c = false := by
  cases path with
  | nil =>
      cases first
      decide
  | cons field path =>
      cases first
      decide

theorem outcome_fieldArguments {path : List String}
    (wellFormed : ∀ field ∈ path,
      field.toList ≠ [] ∧ ∀ c ∈ field.toList, Reference.isFieldChar c = true)
    (more : List Char) :
    outcome allowed ⟨.code false, brackets⟩
      (fieldArguments path ++ ')' :: more) =
      outcome allowed ⟨.code false, brackets⟩ (')' :: more) := by
  induction path with
  | nil => rfl
  | cons field path induction =>
      obtain ⟨notEmpty, fieldChars⟩ := wellFormed field List.mem_cons_self
      have later :=
        induction fun other member => wellFormed other (List.mem_cons_of_mem _
            member)
      have comma : step allowed ⟨.code false, brackets⟩ ',' =
          .ok ⟨.code false, brackets⟩ := rfl
      have blank : step allowed ⟨.code false, brackets⟩ ' ' =
          .ok ⟨.code false, brackets⟩ := rfl
      have opens : step allowed ⟨.code false, brackets⟩ '"' =
          .ok ⟨.quoted '"', brackets⟩ := rfl
      have closes : step allowed ⟨.quoted '"', brackets⟩ '"' =
          .ok ⟨.code false, brackets⟩ := rfl
      simp only [fieldArguments, List.flatMap_cons, List.cons_append,
        List.append_assoc]
      rw [outcome_cons_of_step comma, outcome_cons_of_step blank]
      rcases fieldExpression_toList notEmpty fieldChars with
        ⟨_, _, digits⟩ | ⟨_, quoted⟩
      · have parts := fun c member => isFieldChar_of_isDigit (digits c member)
        rw [outcome_word parts (boundary_fieldArguments path more),
          judge_digits digits, ok_bind]
        exact later
      · have plain := fun c member => ne_of_isFieldChar (fieldChars c member)
        rw [quoted, List.cons_append, outcome_cons_of_step opens,
          List.append_assoc, outcome_plain plain, List.singleton_append,
          outcome_cons_of_step closes]
        exact later

/-- What follows `ctx` in a lookup leaves no trace outside of literals. -/
theorem outcome_lookup_tail
    {target : Reference} (wellFormed : target.WellFormed) (more : List Char) :
    outcome allowed ⟨.code false, brackets⟩
      ((lookup target).toList.drop 3 ++ more) =
      outcome allowed ⟨.code false, brackets⟩ more := by
  have plain := fun c member =>
    ne_of_isFieldChar (wellFormed.isFieldChar_of_mem_root c member)
  have dot :
      step allowed ⟨.code false, brackets⟩ '.' = .ok ⟨.code true, brackets⟩ :=
    rfl
  have get : step allowed ⟨.code true, brackets⟩ 'g' =
      .ok ⟨.name true ['g'], brackets⟩ := rfl
  have parenthesis : step allowed ⟨.code false, brackets⟩ '(' =
      .ok ⟨.code false, '(' :: brackets⟩ := rfl
  have opens : step allowed ⟨.code false, '(' :: brackets⟩ '"' =
      .ok ⟨.quoted '"', '(' :: brackets⟩ := rfl
  have closes : step allowed ⟨.quoted '"', '(' :: brackets⟩ '"' =
      .ok ⟨.code false, '(' :: brackets⟩ := rfl
  have final : step allowed ⟨.code false, '(' :: brackets⟩ ')' =
      .ok ⟨.code false, brackets⟩ := rfl
  simp only [lookup_toList wellFormed, lookupStart, List.cons_append,
    List.nil_append, List.drop_succ_cons, List.drop_zero, List.append_assoc]
  rw [outcome_cons_of_step dot, outcome_cons_of_step get, outcome_name]
  simp only [show isWordPart 'e' = true from rfl,
    show isWordPart 't' = true from rfl, show isWordPart '(' = false from rfl,
    List.takeWhile_cons_of_pos, List.dropWhile_cons_of_pos,
    List.takeWhile_cons_of_neg, List.dropWhile_cons_of_neg, Bool.false_eq_true,
    not_false_eq_true]
  rw [show checkName allowed true ([ 'g' ].reverse ++ ['e', 't']) =
      .ok () from rfl, ok_bind, outcome_cons_of_step parenthesis,
    outcome_cons_of_step opens, outcome_plain plain,
    outcome_cons_of_step closes, outcome_fieldArguments wellFormed.fields,
    outcome_cons_of_step final]

theorem lookup_spans
    {target : Reference} (wellFormed : target.WellFormed) (more : List Char) :
    ((lookup target).toList ++ more).takeWhile isWordPart = ['c', 't', 'x'] ∧
      ((lookup target).toList ++ more).dropWhile isWordPart =
        (lookup target).toList.drop 3 ++ more := by
  rw [lookup_toList wellFormed]
  exact ⟨rfl, rfl⟩

theorem outcome_lookup_of_number
    {target : Reference} (wellFormed : target.WellFormed) (more : List Char) :
    outcome allowed ⟨.number, brackets⟩ ((lookup target).toList ++ more) =
      outcome allowed ⟨.code false, brackets⟩ more := by
  rw [outcome_number, (lookup_spans wellFormed more).2,
    outcome_lookup_tail wellFormed]

theorem outcome_lookup_of_name
    {afterDot : Bool} {reversed : List Char} {target : Reference}
    (wellFormed : target.WellFormed) (more : List Char)
    (accepted : checkName allowed afterDot
      (reversed.reverse ++ ['c', 't', 'x']) = .ok ()) :
    outcome allowed ⟨.name afterDot reversed, brackets⟩
      ((lookup target).toList ++ more) =
      outcome allowed ⟨.code false, brackets⟩ more := by
  obtain ⟨taken, left⟩ := lookup_spans wellFormed more
  rw [outcome_name, taken, accepted, ok_bind, left,
    outcome_lookup_tail wellFormed]

theorem outcome_lookup_of_code
    {afterDot : Bool} {target : Reference} (wellFormed : target.WellFormed)
    (more : List Char) (context : "ctx" ∈ allowed) :
    outcome allowed ⟨.code afterDot, brackets⟩
      ((lookup target).toList ++ more) =
      outcome allowed ⟨.code false, brackets⟩ more := by
  have accepted : checkName allowed afterDot ['c', 't', 'x'] = .ok () := by
    cases afterDot with
    | false => simpa [checkName] using context
    | true => rfl
  have word :
      outcome allowed ⟨.code afterDot, brackets⟩
        ((lookup target).toList ++ more) =
        outcome allowed ⟨.name afterDot [], brackets⟩
          ((lookup target).toList ++ more) := by
    rw [lookup_toList wellFormed]
    rfl
  rw [word]
  exact outcome_lookup_of_name wellFormed more accepted

/-- Between single quotes a lookup is text like any other. -/
theorem outcome_lookup_of_singleQuoted
    {target : Reference} (wellFormed : target.WellFormed) (more : List Char) :
    outcome allowed ⟨.quoted '\'', brackets⟩ ((lookup target).toList ++ more) =
      outcome allowed ⟨.quoted '\'', brackets⟩ more := by
  apply outcome_plain
  intro c member
  rcases mem_lookup wellFormed member with fieldChar | sign
  · constructor <;> rintro rfl <;> revert fieldChar <;> decide
  · constructor <;> rintro rfl <;> revert sign <;> decide

/-- The fields of a path that are written as text. -/
def textFields (path : List String) : List (List Char) :=
  (path.map String.toList).filter fun field => !field.all Char.isDigit

theorem outcome_quotedWord
    {word : List Char} (parts : ∀ c ∈ word, isWordPart c = true)
    (more : List Char) :
    outcome allowed ⟨.quoted '"', brackets⟩ ('"' :: (word ++ '"' :: more)) =
      (do
      judge allowed word
      outcome allowed ⟨.quoted '"', brackets⟩ more) := by
  have closes :
      step allowed ⟨.quoted '"', brackets⟩ '"' = .ok ⟨.code false, brackets⟩ :=
    rfl
  have opens :
      step allowed ⟨.code false, brackets⟩ '"' = .ok ⟨.quoted '"', brackets⟩ :=
    rfl
  have boundary :
      ∀ c, ('"' :: more).head? = some c → isWordPart c = false := by
    rintro c ⟨⟩
    decide
  rw [outcome_cons_of_step closes, outcome_word parts boundary,
    outcome_cons_of_step opens]

theorem outcome_fieldArguments_of_doubleQuoted {path : List String}
    (wellFormed : ∀ field ∈ path,
      field.toList ≠ [] ∧ ∀ c ∈ field.toList, Reference.isFieldChar c = true)
    (more : List Char) :
    outcome allowed ⟨.quoted '"', brackets⟩ (fieldArguments path ++ more) = (do
      judgeAll allowed (textFields path)
      outcome allowed ⟨.quoted '"', brackets⟩ more) := by
  induction path with
  | nil => rfl
  | cons field path induction =>
      obtain ⟨notEmpty, fieldChars⟩ := wellFormed field List.mem_cons_self
      have later :=
        induction fun other member => wellFormed other (List.mem_cons_of_mem _
            member)
      have comma : step allowed ⟨.quoted '"', brackets⟩ ',' =
          .ok ⟨.quoted '"', brackets⟩ := rfl
      have blank : step allowed ⟨.quoted '"', brackets⟩ ' ' =
          .ok ⟨.quoted '"', brackets⟩ := rfl
      simp only [fieldArguments, List.flatMap_cons, List.cons_append,
        List.append_assoc]
      rw [outcome_cons_of_step comma, outcome_cons_of_step blank]
      rcases fieldExpression_toList notEmpty fieldChars with
        ⟨isNumber, _, digits⟩ | ⟨isText, quoted⟩
      · have plain := fun c member =>
          ne_of_isFieldChar (isFieldChar_of_isDigit (digits c member))
        rw [outcome_plain plain,
          show textFields (field :: path) = textFields path by
          simp [textFields, isNumber]]
        exact later
      · rw [quoted, List.cons_append, List.append_assoc, List.singleton_append,
          outcome_quotedWord fieldChars, later,
          show textFields (field :: path) = field.toList :: textFields path by
            simp [textFields, isText],
          judgeAll, bind_assoc]

/-- Between double quotes the root and the fields of a lookup come to stand
outside. -/
theorem outcome_lookup_of_doubleQuoted
    {target : Reference} (wellFormed : target.WellFormed) (more : List Char) :
    outcome allowed ⟨.quoted '"', brackets⟩ ((lookup target).toList ++ more) =
      (do
      judgeAll allowed (target.root.toList :: textFields target.path)
      outcome allowed ⟨.quoted '"', brackets⟩ more) := by
  have start : ∀ c ∈ lookupStart, c ≠ '\\' ∧ c ≠ '"' := by simp [lookupStart]
  have final :
      step allowed ⟨.quoted '"', brackets⟩ ')' = .ok ⟨.quoted '"', brackets⟩ :=
    rfl
  have text : (lookup target).toList ++ more =
      lookupStart ++ '"' ::
        (target.root.toList ++ '"' ::
          (fieldArguments target.path ++ ')' :: more)) := by
    simp [lookup_toList wellFormed]
  rw [text, outcome_plain start,
    outcome_quotedWord wellFormed.isFieldChar_of_mem_root,
    outcome_fieldArguments_of_doubleQuoted wellFormed.fields,
    outcome_cons_of_step final, judgeAll, bind_assoc]

end Workflow.Condition.Scan
