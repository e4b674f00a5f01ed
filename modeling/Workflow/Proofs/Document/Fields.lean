import Workflow.Document.NodeReader

/-!
# Reading without errors

`Checked.Gives` says that a reading comes to a value and records no error on
the way; warnings are allowed.  Each reader of a single field is described by
an equivalence, so that readers of whole objects are taken apart by rewriting.
-/

namespace Workflow

namespace Checked

variable {α β : Type}

/-- The reading comes to a value, and nothing on the way is an error. -/
structure Gives (reading : Checked α) (value : α) : Prop where
  value : reading.value = value
  clean : ∀ issue ∈ reading.issues, issue.severity ≠ .error

@[simp] theorem gives_pure {left right : α} :
    (pure left : Checked α).Gives right ↔ right = left := by
  constructor
  · intro gives
    exact gives.value.symm
  · rintro rfl
    exact ⟨rfl, by simp⟩

@[simp] theorem gives_bind
    {first : Checked α} {next : α → Checked β} {result : β} :
    (first >>= next).Gives result ↔
      ∃ middle, first.Gives middle ∧ (next middle).Gives result := by
  constructor
  · intro gives
    have clean := gives.clean
    simp only [issues_bind, List.mem_append] at clean
    exact ⟨first.value, ⟨rfl, fun issue member => clean issue (.inl member)⟩,
      gives.value, fun issue member => clean issue (.inr member)⟩
  · rintro ⟨_, ⟨rfl, firstClean⟩, value, nextClean⟩
    refine ⟨value, ?_⟩
    intro issue member
    rcases List.mem_append.mp member with before | behind
    · exact firstClean issue before
    · exact nextClean issue behind

@[simp] theorem gives_record
    {finding : Finding} {path : Path} {result : Unit} :
    (finding.record path).Gives result ↔ finding.severity = .warning := by
  constructor
  · intro gives
    have clean := gives.clean (finding.issue path) (List.mem_singleton.mpr rfl)
    cases severity : finding.severity with
    | error => exact absurd severity clean
    | warning => rfl
  · intro warning
    refine ⟨rfl, ?_⟩
    intro issue member
    obtain rfl := List.mem_singleton.mp member
    simp [Finding.issue, warning]

theorem gives_ite_warning
    {condition : Prop} [Decidable condition] (finding : Finding)
    (warning : finding.severity = .warning) {path : Path} {rest : Checked α}
    {result : α} :
    (if condition then (do finding.record path; rest) else rest).Gives result ↔
      rest.Gives result := by
  split
  · simp [warning]
  · exact Iff.rfl

end Checked

namespace Document

variable {members : Members} {key : String} {path : Path}

/-- A text that may be absent or null. -/
def OptionalText (members : Members) (key : String) : Option String → Prop
  | some text => members.get? key = some (.string text)
  | none => members.get? key = none ∨ members.get? key = some .null

@[simp] theorem gives_members?
    {value : Value} {what : String} {found : Option Members} :
    (members? value path what).Gives found ↔
      ∃ members, value = .object members ∧ found = some members := by
  cases value with
  | object members => simp [members?]
  | _ => simp [members?, Finding.severity]

/-- Unknown keys are warned of and nothing more. -/
@[simp] theorem gives_recordUnknownKeys
    {known keys : List String} {result : Unit} :
    (recordUnknownKeys known path keys).Gives result := by
  induction keys with
  | nil => exact Checked.gives_pure.mpr rfl
  | cons key rest induction =>
      simp only [recordUnknownKeys]
      split
      · simp [Finding.severity, induction]
      · simp [induction]

@[simp] theorem gives_requiredText {text? : Option String} :
    (requiredText members key path).Gives text? ↔
      ∃ text, members.get? key = some (.string text) ∧ text? = some text := by
  unfold requiredText
  cases members.get? key with
  | none => simp [Finding.severity]
  | some value =>
      cases value with
      | string text => simp
      | _ => simp [Finding.severity]

@[simp] theorem gives_optionalText {text? : Option (Option String)} :
    (optionalText members key path).Gives text? ↔
      ∃ text, OptionalText members key text ∧ text? = some text := by
  unfold optionalText OptionalText
  cases members.get? key with
  | none => simp [Option.exists]
  | some value =>
      cases value with
      | null => simp [Option.exists]
      | string text => simp [Option.exists]
      | _ => simp [Finding.severity, Option.exists]

@[simp] theorem gives_recordName {name what : String} {result : Unit} :
    (recordName name path what).Gives result ↔ isIdentifier name = true := by
  unfold recordName isIdentifier
  cases Identifier.problem? name with
  | none => simp
  | some problem => simp [Finding.severity]

@[simp] theorem gives_recordDuplicate
    {name what : String} {earlier : List String} {result : Unit} :
    (recordDuplicate name earlier path what).Gives result ↔
      name ∉ earlier := by
  unfold recordDuplicate
  by_cases member : name ∈ earlier
  · simp [member, Finding.severity]
  · simp [member]

@[simp] theorem gives_recordCondition {condition : String} {result : Unit} :
    (recordCondition condition path).Gives result ↔
      Condition.check condition = .ok () := by
  unfold recordCondition
  cases Condition.check condition with
  | ok _ => simp
  | error problem => simp [Finding.severity]

end Document

end Workflow
