import Mathlib.Data.List.Basic
import Workflow.Document.SpecReader
import Workflow.Proofs.Reference.Atoms
import Workflow.Proofs.Sequencing

/-!
# Names, versions and templates

The three kinds of text that a document is held to, each stated over its
characters: names, versions, and the strings inside parameter values.  Each
statement is met by exactly the texts that the corresponding check lets pass.
-/

namespace Workflow

/-- A lower-case letter or an underscore, then lower-case letters, digits and
underscores, sixty-four characters in all at most. -/
def IsName (text : String) : Prop :=
  ∃ first rest, text.toList = first :: rest ∧ rest.length < 64 ∧
    ('a' ≤ first ∧ first ≤ 'z' ∨ first = '_') ∧
    ∀ c ∈ rest, 'a' ≤ c ∧ c ≤ 'z' ∨ '0' ≤ c ∧ c ≤ '9' ∨ c = '_'

namespace Identifier

theorem isStart_iff {c : Char} :
    isStart c = true ↔ 'a' ≤ c ∧ c ≤ 'z' ∨ c = '_' := by
  simp only [isStart, Bool.or_eq_true, Text.isLower_iff_toNat, beq_iff_eq,
    Char.le_def, UInt32.le_iff_toNat_le]
  rfl

theorem isPart_iff {c : Char} :
    isPart c = true ↔ 'a' ≤ c ∧ c ≤ 'z' ∨ '0' ≤ c ∧ c ≤ '9' ∨ c = '_' := by
  simp only [isPart, Bool.or_eq_true, Text.isLower_iff_toNat,
    Char.isDigit_iff_toNat, beq_iff_eq, Char.le_def, UInt32.le_iff_toNat_le,
    or_assoc]
  rfl

theorem invalidPart?_eq_none {position : Nat} {text : List Char} :
    invalidPart? position text = none ↔ ∀ c ∈ text, isPart c = true := by
  induction text generalizing position with
  | nil => simp [invalidPart?]
  | cons c rest induction =>
      by_cases part : isPart c = true
      · simp [invalidPart?, part, induction]
      · simp [invalidPart?, part]

end Identifier

theorem isIdentifier_iff {text : String} :
    isIdentifier text = true ↔ IsName text := by
  simp only [isIdentifier, Identifier.problem?, IsName, Identifier.maxLength,
    ← Identifier.isStart_iff, ← Identifier.isPart_iff]
  cases text.toList with
  | nil => simp
  | cons first rest =>
      by_cases long : 64 < rest.length + 1
      · have tooLong : ¬ rest.length < 64 := by omega
        simp [long, tooLong]
      · have short : rest.length < 64 := by omega
        by_cases start : Identifier.isStart first = true
        · simp [long, short, start, Identifier.invalidPart?_eq_none]
        · simp [long, start]

/-- Three runs of decimal digits with dots between them. -/
def IsVersion (text : String) : Prop :=
  ∃ major minor patch : List Char,
    text.toList = major ++ '.' :: (minor ++ '.' :: patch) ∧
    ∀ part ∈ [major, minor, patch],
      part ≠ [] ∧ ∀ c ∈ part, Text.isDecimalDigit c = true

theorem isVersion_iff {text : String} :
    Document.isVersion text = true ↔ IsVersion text := by
  simp only [Document.isVersion, Bool.and_eq_true, beq_iff_eq,
    List.all_eq_true, Bool.not_eq_true', List.isEmpty_eq_false_iff]
  constructor
  · rintro ⟨three, digits⟩
    obtain ⟨major, rest, cut, joined⟩ := Text.pieces_eq_cons '.' text.toList
    rw [cut] at three digits
    obtain ⟨minor, patch, rfl⟩ := List.length_eq_two.mp (Nat.succ.inj three)
    exact ⟨major, minor, patch, by simpa using joined, digits⟩
  · rintro ⟨major, minor, patch, joined, digits⟩
    have dot : Text.isDecimalDigit '.' = false := by decide
    have noDots : ∀ part ∈ [major, minor, patch], ∀ c ∈ part, c ≠ '.' := by
      intro part member c inPart
      rintro rfl
      simp [(digits part member).2 '.' inPart] at dot
    have cut : Text.pieces '.' text.toList = [major, minor, patch] := by
      rw [joined]
      simpa using Text.pieces_flatMap noDots
    rw [cut]
    exact ⟨rfl, digits⟩

/-- A text without double opening braces, or such a text up to a reference and
a template behind it. -/
inductive IsTemplate : List Char → Prop where
  | plain {text : List Char} (noBraces : ¬ ['\x7b', '\x7b'] <:+: text) :
      IsTemplate text
  | reference {text rest : List Char} {target : Reference}
      (noBraces : ¬ ['\x7b', '\x7b'] <:+: text)
      (wellFormed : target.WellFormed)
      (later : IsTemplate rest) : IsTemplate (text ++ (target.chars ++ rest))

namespace Template

theorem openBraces?_eq_none {text : List Char} :
    openBraces? text = none ↔ ¬ ['\x7b', '\x7b'] <:+: text := by
  induction text with
  | nil => simp [openBraces?]
  | cons c rest induction =>
      rw [openBraces?, List.infix_cons_iff, not_or, ← induction,
        ← List.isPrefixOf_iff_prefix]
      by_cases here : ['\x7b', '\x7b'].isPrefixOf (c :: rest) = true
      · simp [here]
      · simp [here]

theorem segments_ok_iff {text : String} :
    (∃ pieces, segments text = .ok pieces) ↔
      ∀ piece ∈ segmentsFrom [] (atoms text.toList),
        piece.malformed? = none := by
  rw [← List.findSome?_eq_none_iff]
  unfold segments
  simp only
  split
  · rename_i malformed found
    simp [found]
  · rename_i found
    simp [found]

theorem malformed?_closeLiteral {reversed : List Char} :
    (∀ piece ∈ closeLiteral reversed, piece.malformed? = none) ↔
      ¬ ['\x7b', '\x7b'] <:+: reversed.reverse := by
  unfold closeLiteral
  cases reversed with
  | nil => simp
  | cons c reversed => simp [Segment.malformed?, openBraces?_eq_none]

/-- Characters that are still to be joined stand in front of the text that the
atoms spell. -/
theorem isTemplate_of_segmentsFrom (reversed : List Char) {atoms : List Atom}
    (wellFormed : ∀ target, .reference target ∈ atoms → target.WellFormed)
    (sound : ∀ piece ∈ segmentsFrom reversed atoms, piece.malformed? = none) :
    IsTemplate (reversed.reverse ++ atoms.flatMap Atom.chars) := by
  induction atoms generalizing reversed with
  | nil =>
      rw [List.flatMap_nil, List.append_nil]
      exact .plain (malformed?_closeLiteral.mp sound)
  | cons atom atoms induction =>
      have later : ∀ target, .reference target ∈ atoms → target.WellFormed :=
        fun target member => wellFormed target (List.mem_cons_of_mem _ member)
      cases atom with
      | char c =>
          have joined := induction (c :: reversed) later sound
          simpa [Atom.chars] using joined
      | reference target =>
          simp only [segmentsFrom, List.forall_mem_append,
            List.forall_mem_cons] at sound
          obtain ⟨before, _, behind⟩ := sound
          have rest := induction [] later behind
          rw [List.flatMap_cons]
          exact .reference (malformed?_closeLiteral.mp before)
            (wellFormed target List.mem_cons_self) rest

/-- No reference starts inside a text without double opening braces, even when
a reference follows right behind it. -/
theorem match?_eq_none_of_noBraces {c : Char} {text behind : List Char}
    (noBraces : ¬ ['\x7b', '\x7b'] <:+: c :: text)
    (follows : behind = [] ∨ ∃ rest, behind = '\x7b' :: '\x7b' :: rest) :
    Reference.match? (c :: text ++ behind) = none := by
  by_cases brace : c = '\x7b'
  · subst brace
    have noSecond : ∀ rest, text ≠ '\x7b' :: rest := by
      rintro rest rfl
      exact noBraces ⟨[], rest, rfl⟩
    cases text with
    | cons d text =>
        have different : d ≠ '\x7b' := fun same => noSecond text (same ▸ rfl)
        unfold Reference.match?
        split
        · rename_i shape
          simp_all
        · rfl
    | nil =>
        rcases follows with rfl | ⟨rest, rfl⟩
        · rfl
        · have outside : Reference.isInner '\x7b' = false := by decide
          simp [Reference.match?, outside]
  · exact Reference.match?_cons_of_ne brace (text ++ behind)

theorem atoms_noBraces_append {text behind : List Char}
    (noBraces : ¬ ['\x7b', '\x7b'] <:+: text)
    (follows : behind = [] ∨ ∃ rest, behind = '\x7b' :: '\x7b' :: rest) :
    atoms (text ++ behind) = text.map .char ++ atoms behind := by
  induction text with
  | nil => rfl
  | cons c text induction =>
      have inner : ¬ ['\x7b', '\x7b'] <:+: text :=
        fun occurs => noBraces (occurs.trans (List.suffix_cons c text).isInfix)
      have notFound := match?_eq_none_of_noBraces noBraces follows
      rw [List.cons_append] at notFound ⊢
      rw [atoms_cons_of_no_match notFound, induction inner]
      rfl

theorem segmentsFrom_chars (reversed text : List Char) (atoms : List Atom) :
    segmentsFrom reversed (text.map .char ++ atoms) =
      segmentsFrom (text.reverse ++ reversed) atoms := by
  induction text generalizing reversed with
  | nil => rfl
  | cons c text induction =>
      simp [segmentsFrom, induction]

theorem sound_of_isTemplate {text : List Char} (template : IsTemplate text) :
    ∀ piece ∈ segmentsFrom [] (atoms text), piece.malformed? = none := by
  induction template with
  | plain noBraces =>
      have cut := atoms_noBraces_append noBraces (.inl rfl)
      rw [List.append_nil] at cut
      rw [cut, segmentsFrom_chars, List.append_nil]
      apply malformed?_closeLiteral.mpr
      rwa [List.reverse_reverse]
  | @reference text rest target noBraces wellFormed later induction =>
      have opening :
          ∃ inside, target.chars ++ rest = '\x7b' :: '\x7b' :: inside :=
        ⟨_, rfl⟩
      rw [atoms_noBraces_append noBraces (.inr opening),
        atoms_chars_append wellFormed, segmentsFrom_chars, List.append_nil]
      simp only [segmentsFrom, List.forall_mem_append, List.forall_mem_cons]
      refine ⟨?_, rfl, induction⟩
      apply malformed?_closeLiteral.mpr
      rwa [List.reverse_reverse]

theorem isTemplate_iff {text : String} :
    (∃ pieces, segments text = .ok pieces) ↔ IsTemplate text.toList := by
  rw [segments_ok_iff]
  constructor
  · intro sound
    have spelled :=
      isTemplate_of_segmentsFrom [] (fun _ => wellFormed_of_mem_atoms) sound
    simpa [flatMap_chars_atoms] using spelled
  · exact sound_of_isTemplate

end Template

namespace Value

mutual

/-- The strings inside a value, keys of objects apart. -/
def texts : Value → List String
  | .string text => [text]
  | .array items => textsList items
  | .object members => textsMembers members
  | _ => []

def textsList : List Value → List String
  | [] => []
  | item :: rest => texts item ++ textsList rest

def textsMembers : List (String × Value) → List String
  | [] => []
  | (_, value) :: rest => texts value ++ textsMembers rest

end

theorem exists_append_ok_iff {ε α : Type} {first later : Except ε (List α)} :
    (∃ both, (do let front ← first; let back ← later; return front ++ back) =
      .ok both) ↔
      (∃ front, first = .ok front) ∧ ∃ back, later = .ok back := by
  cases first with
  | error fault => simp [error_bind]
  | ok front =>
      cases later with
      | error fault => simp [ok_bind]
      | ok back => simp [ok_bind, pure, Except.pure]

mutual

theorem references_ok_iff (value : Value) :
    (∃ found, value.references = .ok found) ↔
      ∀ text ∈ value.texts, IsTemplate text.toList := by
  cases value with
  | string text =>
      simp only [references, texts, List.mem_singleton, forall_eq,
        ← Template.isTemplate_iff, Template.templateReferences, map_eq_ok_iff]
      constructor
      · rintro ⟨_, pieces, cut, _⟩
        exact ⟨pieces, cut⟩
      · rintro ⟨pieces, cut⟩
        exact ⟨_, pieces, cut, rfl⟩
  | array items => exact referencesList_ok_iff items
  | object members => exact referencesMembers_ok_iff members
  | null => simp [references, texts]
  | bool value => simp [references, texts]
  | number value => simp [references, texts]

theorem referencesList_ok_iff (items : List Value) :
    (∃ found, referencesList items = .ok found) ↔
      ∀ text ∈ textsList items, IsTemplate text.toList := by
  cases items with
  | nil => simp [referencesList, textsList]
  | cons item rest =>
      rw [referencesList, textsList, exists_append_ok_iff,
        references_ok_iff item, referencesList_ok_iff rest,
        List.forall_mem_append]

theorem referencesMembers_ok_iff (members : List (String × Value)) :
    (∃ found, referencesMembers members = .ok found) ↔
      ∀ text ∈ textsMembers members, IsTemplate text.toList := by
  cases members with
  | nil => simp [referencesMembers, textsMembers]
  | cons member rest =>
      obtain ⟨key, value⟩ := member
      rw [referencesMembers, textsMembers, exists_append_ok_iff,
        references_ok_iff value, referencesMembers_ok_iff rest,
        List.forall_mem_append]

end

end Value

end Workflow
