import Workflow.Name.Identifier
import Workflow.Proofs.Program.Conditions
import Workflow.Proofs.Program.Layout

/-!
# Lines of statements

The shapes that emitted lines have: an application, and a header that begins
with a keyword and ends with a colon.  Names that go into them are identifiers
or numbers.
-/

namespace Workflow.Program

open SelfCheck

theorem isPart_of_invalidPart? {position : Nat} {text : List Char}
    (valid : Identifier.invalidPart? position text = none) :
    ∀ c ∈ text, Identifier.isPart c = true := by
  induction text generalizing position with
  | nil => exact nofun
  | cons c rest induction =>
      rw [Identifier.invalidPart?] at valid
      split at valid
      · rename_i part
        exact List.forall_mem_cons.mpr ⟨part, induction valid⟩
      · cases valid

theorem isPart_of_isIdentifier
    {name : String} (identifier : isIdentifier name = true) {c : Char}
    (member : c ∈ name.toList) :
    Identifier.isPart c = true := by
  have valid : Identifier.problem? name = none :=
    Option.isNone_iff_eq_none.mp identifier
  unfold Identifier.problem? at valid
  split at valid
  · cases valid
  · rename_i first rest shape
    split at valid
    · cases valid
    · split at valid
      · rename_i start
        rw [shape] at member
        rcases List.mem_cons.mp member with rfl | behind
        · simp only [Identifier.isStart, Identifier.isPart,
            Bool.or_eq_true] at start ⊢
          grind
        · exact isPart_of_invalidPart? valid c behind
      · cases valid

theorem isFieldChar_of_isIdentifier
    {name : String} (identifier : isIdentifier name = true) {c : Char}
    (member : c ∈ name.toList) :
    Reference.isFieldChar c = true :=
  Reference.isFieldChar_of_isRootPart
    (isPart_of_isIdentifier identifier member)

theorem isPlain_of_isIdentifier
    {name : String} (identifier : isIdentifier name = true) :
    IsPlain name := by
  apply List.all_eq_true.mpr
  intro c member
  exact isPlain_of_isFieldChar (isFieldChar_of_isIdentifier identifier member)

theorem isPlain_toString (n : Nat) : IsPlain (toString n) := by
  apply List.all_eq_true.mpr
  intro c member
  have digit : c ∈ Nat.toDigits 10 n := by simpa using member
  exact isPlain_of_isFieldChar
    (isFieldChar_of_isDigit (Number.isDigit_of_mem_toDigits digit))

theorem standsAlone_of_expression
    {text : List Char} (complete : Expression text)
    (starts : ∃ c ∈ text.head?, Text.isBlank c = false)
    (ends : ∃ c ∈ text.getLast?, Text.isBlank c = false) :
    StandsAlone text := by
  refine ⟨complete.inline, ?_, starts, ends⟩
  intro number
  have nothing : Unquoted [] := nofun
  have read := complete.reads number [] nothing
  rw [List.append_nil] at read
  rw [read]
  rfl

/-- Whether a line stands alone, found out by reading it. -/
def isAlone (text : List Char) : Bool :=
  text.all (fun c => c != '\n' && c != '\x00') &&
    decide (readRest 0 ⟨.code, []⟩ text = .ok ⟨.code, []⟩) &&
    text.head?.any (!Text.isBlank ·) && text.getLast?.any (!Text.isBlank ·)

-- Fixed lines are given with their characters: to find those of a literal
-- takes the kernel long.

theorem standsAlone_of_isAlone {text : String} {chars : List Char}
    (spelled : text = String.ofList chars) (alone : isAlone chars = true) :
    StandsAlone text.toList := by
  simp only [isAlone, Bool.and_eq_true, List.all_eq_true, bne_iff_ne,
    decide_eq_true_eq, Option.any_eq_true, Bool.not_eq_true'] at alone
  obtain ⟨⟨⟨inline, reads⟩, starts⟩, ends⟩ := alone
  rw [spelled, String.toList_ofList]
  exact ⟨inline, fun number => readRest_of_readRest number reads, starts, ends⟩

/-- A fixed line that is no header. -/
theorem regular_of_isAlone {text : String} {chars : List Char}
    (spelled : text = String.ofList chars)
    (alone : (isAlone chars && chars.getLast? != some ':') = true) :
    Code.Regular (.line text) := by
  obtain ⟨alone, noColon⟩ := Bool.and_eq_true_iff.mp alone
  refine ⟨standsAlone_of_isAlone spelled alone, ?_⟩
  rw [spelled, String.toList_ofList]
  simpa using noColon

/-- Plain text that a line may start with. -/
structure Lead (text : String) : Prop where
  plain : IsPlain text
  starts : ∃ c ∈ text.toList.head?, Text.isBlank c = false

theorem lead_iff {text : String} :
    Lead text ↔
      IsPlain text ∧ text.toList.head?.any (!Text.isBlank ·) = true := by
  constructor
  · intro lead
    exact ⟨lead.plain, by simpa [Option.any_eq_true] using lead.starts⟩
  · intro both
    exact ⟨both.1, by simpa [Option.any_eq_true] using both.2⟩

instance (text : String) : Decidable (Lead text) :=
  decidable_of_iff' _ lead_iff

section

variable {front text : String} {body : List Char}

theorem Lead.starts_append
    (lead : Lead front) (shape : text.toList = front.toList ++ body) :
    ∃ c ∈ text.toList.head?, Text.isBlank c = false := by
  obtain ⟨c, head, notBlank⟩ := lead.starts
  refine ⟨c, ?_, notBlank⟩
  rw [shape, List.head?_append, head]
  rfl

theorem Lead.append
    {rest : String} (lead : Lead front) (plain : IsPlain rest) :
    Lead (front ++ rest) :=
  ⟨lead.plain.append plain, lead.starts_append String.toList_append⟩

theorem Lead.expression (lead : Lead front) (complete : Expression body)
    (shape : text.toList = front.toList ++ body) : Expression text.toList := by
  rw [shape]
  exact (sealed_of_isPlain lead.plain).append_expression complete

end

theorem regular_of_expression
    {text : String} {last : Char} (whole : Expression text.toList)
    (starts : ∃ c ∈ text.toList.head?, Text.isBlank c = false)
    (ends : text.toList.getLast? = some last)
    (notBlank : Text.isBlank last = false) (noColon : last ≠ ':') :
    Code.Regular (.line text) := by
  refine ⟨standsAlone_of_expression whole starts ⟨last, ends, notBlank⟩, ?_⟩
  rw [ends]
  simpa using noColon

/-- A line of plain text and an expression behind it. -/
theorem regular_behind
    (front : String) {text : String} {body : List Char} {last : Char}
    (lead : Lead front) (complete : Expression body)
    (shape : text.toList = front.toList ++ body)
    (ends : body.getLast? = some last) (notBlank : Text.isBlank last = false)
    (noColon : last ≠ ':') :
    Code.Regular (.line text) := by
  have lastChar : text.toList.getLast? = some last := by
    rw [shape, List.getLast?_append, ends]
    rfl
  exact regular_of_expression (lead.expression complete shape)
    (lead.starts_append shape) lastChar notBlank noColon

/-- A line that consists of an application. -/
theorem regular_application
    (front : String) {text : String} {arguments : List Char}
    (lead : Lead front) (complete : Expression arguments)
    (shape : text.toList = front.toList ++ '(' :: (arguments ++ [')'])) :
    Code.Regular (.line text) := by
  have brackets : Expression ('(' :: (arguments ++ [')'])) :=
    (sealed_brackets (by simp [Pair]) complete).expression
  have last : ('(' :: (arguments ++ [')'])).getLast? = some ')' := by
    rw [← List.cons_append]
    exact List.getLast?_concat
  exact regular_behind front lead brackets shape last (by decide) (by decide)

/-- A line that consists of a string literal. -/
theorem regular_quoted (text : String) :
    Code.Regular (.line (Text.quoted text)) := by
  have shape : (Text.quoted text).toList =
      '"' :: (text.toList.flatMap Text.escape ++ ['"']) := by
    simp [Text.quoted, Text.quotedChars]
  have last : (Text.quoted text).toList.getLast? = some '"' := by
    rw [shape, ← List.cons_append]
    exact List.getLast?_concat
  exact regular_of_expression (expression_quoted text)
    ⟨'"', by rw [shape]; rfl, by decide⟩ last (by decide) (by decide)

/-- A header: plain text, an expression and a colon. -/
theorem standsAlone_header
    (front : String) {text : String} {expression : List Char}
    (lead : Lead front) (complete : Expression expression)
    (shape : text.toList = front.toList ++ (expression ++ [':'])) :
    StandsAlone text.toList := by
  have colon : Sealed [':'] := sealed_of_isPlain (by decide)
  have last : text.toList.getLast? = some ':' := by
    rw [shape, ← List.append_assoc]
    exact List.getLast?_concat
  have behind :=
    (complete.append_sealed colon (by simp) (by simp [Unquoted])).expression
  exact standsAlone_of_expression (lead.expression behind shape)
    (lead.starts_append shape) ⟨':', last, by decide⟩

end Workflow.Program
