import Workflow.Proofs.Text.Pieces
import Workflow.Reference.Template

/-!
# Atoms of a text

Cutting a text into characters and references loses nothing, and every
reference that is found has a root and fields of the right characters.  Blanks
are never part of a reference, so those at the ends of a text can be taken off
before or after it is cut.
-/

namespace Workflow

namespace Reference

/-- What stands between the braces. -/
def inner (reference : Reference) : List Char :=
  reference.root.toList ++
    reference.path.flatMap fun field => '.' :: field.toList

theorem chars_eq (reference : Reference) :
    reference.chars =
      '\x7b' :: '\x7b' :: (reference.inner ++ ['\x7d', '\x7d']) := rfl

/-- The root and every field are made of the characters that they may have, and
none of them is empty. -/
structure WellFormed (reference : Reference) : Prop where
  root : isRoot reference.root.toList = true
  fields : ∀ field ∈ reference.path,
    field.toList ≠ [] ∧ ∀ c ∈ field.toList, isFieldChar c = true

theorem ofInner?_eq_some {inner : List Char} {reference : Reference}
    (allInner : ∀ c ∈ inner, isInner c = true)
    (read : ofInner? inner = some reference) :
    reference.WellFormed ∧ inner = reference.inner := by
  obtain ⟨root, fields, cut, joined⟩ := Text.pieces_eq_cons '.' inner
  simp only [ofInner?, cut] at read
  split at read
  · rename_i shape
    obtain ⟨isRoot, noneEmpty⟩ := Bool.and_eq_true_iff.mp shape
    obtain rfl := Option.some.inj read
    refine ⟨⟨by simpa using isRoot, ?_⟩, ?_⟩
    · intro field member
      obtain ⟨piece, inFields, rfl⟩ := List.mem_map.mp member
      have piecesMember : piece ∈ Text.pieces '.' inner := by
        simp [cut, inFields]
      have notEmpty := List.all_eq_true.mp noneEmpty piece inFields
      refine ⟨by simpa using notEmpty, ?_⟩
      intro c inPiece
      have inText :=
        Text.mem_of_mem_pieces piecesMember (by simpa using inPiece)
      have inner := allInner c inText.1
      simpa [isInner, inText.2] using inner
    · simpa [Reference.inner, List.flatMap_map] using joined
  · cases read

/-- A reference that is found at the start of a text is well formed and takes
up the characters that it is written with. -/
theorem match?_eq_some {text : List Char} {target : Reference} {length : Nat}
    (found : match? text = some (target, length)) :
    target.WellFormed ∧
    ∃ after, text = target.chars ++ after ∧ length = target.chars.length := by
  unfold match? at found
  split at found
  · rename_i rest
    simp only at found
    split at found
    · rename_i after closing
      obtain ⟨reference, read, pair⟩ := Option.map_eq_some_iff.mp found
      obtain ⟨rfl, rfl⟩ := Prod.mk.inj pair
      obtain ⟨wellFormed, inner⟩ :=
        ofInner?_eq_some (List.all_eq_true.mp List.all_takeWhile) read
      refine ⟨wellFormed, after, ?_, ?_⟩
      · rw [← List.takeWhile_append_dropWhile (p := isInner) (l := rest),
          closing, inner]
        simp [chars_eq]
      · simp [chars_eq, inner, Nat.add_assoc]
    · cases found
  · cases found

theorem isFieldChar_of_isRootPart {c : Char} (part : isRootPart c = true) :
    isFieldChar c = true := by
  simp only [isRootPart, isFieldChar, Bool.or_eq_true, Text.isLower_iff_toNat,
    Char.isDigit_iff_toNat, Text.isAlphanum_iff_toNat] at part ⊢
  rcases part with (lower | digit) | underscore
  · exact .inl (.inl (.inr lower))
  · exact .inl (.inr digit)
  · exact .inr underscore

theorem toNat_of_isFieldChar {c : Char} (fieldChar : isFieldChar c = true) :
    48 ≤ c.toNat ∧ c.toNat ≤ 122 := by
  simp only [isFieldChar, Bool.or_eq_true, beq_iff_eq,
    Text.isAlphanum_iff_toNat] at fieldChar
  rcases fieldChar with alphanum | rfl
  · omega
  · decide

namespace WellFormed

variable {reference : Reference}

theorem root_eq_cons (wellFormed : reference.WellFormed) :
    ∃ first rest,
      reference.root.toList = first :: rest ∧ isRootStart first = true ∧
      ∀ c ∈ first :: rest, isFieldChar c = true := by
  have isRoot := wellFormed.root
  cases shape : reference.root.toList with
  | nil => simp [shape, Reference.isRoot] at isRoot
  | cons first rest =>
      simp only [shape, Reference.isRoot, Bool.and_eq_true,
        List.all_eq_true] at isRoot
      refine ⟨first, rest, rfl, isRoot.1, ?_⟩
      intro c member
      apply isFieldChar_of_isRootPart
      rcases List.mem_cons.mp member with rfl | later
      · have start := isRoot.1
        simp only [isRootStart, isRootPart, Bool.or_eq_true] at start ⊢
        grind
      · exact isRoot.2 c later

theorem isFieldChar_of_mem_root (wellFormed : reference.WellFormed) :
    ∀ c ∈ reference.root.toList, isFieldChar c = true := by
  obtain ⟨first, rest, shape, _, fieldChars⟩ := wellFormed.root_eq_cons
  rwa [shape]

theorem isInner_of_mem_inner (wellFormed : reference.WellFormed) :
    ∀ c ∈ reference.inner, isInner c = true := by
  intro c member
  rcases List.mem_append.mp member with inRoot | inPath
  · simp [isInner, wellFormed.isFieldChar_of_mem_root c inRoot]
  · obtain ⟨field, inFields, inPiece⟩ := List.mem_flatMap.mp inPath
    rcases List.mem_cons.mp inPiece with rfl | inField
    · rfl
    · simp [isInner, (wellFormed.fields field inFields).2 c inField]

theorem ofInner?_inner (wellFormed : reference.WellFormed) :
    ofInner? reference.inner = some reference := by
  have noDots : ∀ piece ∈ reference.root.toList :: reference.path.map
      String.toList, ∀ c ∈ piece, c ≠ '.' := by
    intro piece member c inPiece
    have fieldChar : isFieldChar c = true := by
      rcases List.mem_cons.mp member with rfl | inFields
      · exact wellFormed.isFieldChar_of_mem_root c inPiece
      · obtain ⟨field, inPath, rfl⟩ := List.mem_map.mp inFields
        exact (wellFormed.fields field inPath).2 c inPiece
    rintro rfl
    revert fieldChar
    decide
  have cut := Text.pieces_flatMap noDots
  have noneEmpty : ∀ field ∈ reference.path, field.toList ≠ [] :=
    fun field member => (wellFormed.fields field member).1
  rw [List.flatMap_map] at cut
  have joined : Text.pieces '.' reference.inner =
      reference.root.toList :: reference.path.map String.toList := cut
  have names : (reference.path.map String.toList).map String.ofList =
      reference.path := by
    simp [List.map_map, Function.comp_def]
  have allNonempty :
      (reference.path.map String.toList).all (fun field => !field.isEmpty) =
        true := by
    simpa using noneEmpty
  simp only [ofInner?, joined, wellFormed.root, allNonempty, names,
    Bool.and_self, if_true, String.ofList_toList]

/-- A well-formed reference is found where it is written. -/
theorem match?_chars (wellFormed : reference.WellFormed) (after : List Char) :
    match? (reference.chars ++ after) =
      some (reference, reference.chars.length) := by
  have allInner := wellFormed.isInner_of_mem_inner
  have closing : isInner '\x7d' = false := by decide
  have taken :
      (reference.inner ++ '\x7d' :: '\x7d' :: after).takeWhile isInner =
        reference.inner := by
    simp [List.takeWhile_append_of_pos allInner, closing]
  have left :
      (reference.inner ++ '\x7d' :: '\x7d' :: after).dropWhile isInner =
        '\x7d' :: '\x7d' :: after := by
    simp [List.dropWhile_append_of_pos allInner, closing]
  simp [chars_eq, match?, taken, left, wellFormed.ofInner?_inner]

end WellFormed

theorem match?_cons_of_ne
    {c : Char} (different : c ≠ '\x7b') (rest : List Char) :
    match? (c :: rest) = none := by
  unfold match?
  split
  · rename_i same
    exact absurd (List.cons.inj same).1 different
  · rfl

/-- Characters that no reference is written with. -/
def isForeign (c : Char) : Bool :=
  !isInner c && c != '\x7b' && c != '\x7d'

theorem isForeign_of_isBlank {c : Char} (blank : Text.isBlank c = true) :
    isForeign c = true := by
  have different := Text.ne_of_isBlank blank
  simp [isForeign, isInner, isFieldChar, Text.not_isAlphanum_of_isBlank blank,
    different '_' rfl, different '.' rfl, different '\x7b' rfl,
    different '\x7d' rfl]

theorem WellFormed.isForeign_eq_false
    {reference : Reference} (wellFormed : reference.WellFormed) {c : Char}
    (member : c ∈ reference.chars) :
    isForeign c = false := by
  simp only [chars_eq, List.mem_cons, List.mem_append, List.not_mem_nil,
    or_false] at member
  rcases member with rfl | rfl | inside | rfl | rfl
  · rfl
  · rfl
  · simp [isForeign, wellFormed.isInner_of_mem_inner c inside]
  · rfl
  · rfl

/-- No reference reaches into a tail of foreign characters. -/
theorem match?_append_eq_none
    {text trail : List Char} (foreign : ∀ c ∈ trail, isForeign c = true)
    (notFound : match? text = none) :
    match? (text ++ trail) = none := by
  cases found : match? (text ++ trail) with
  | none => rfl
  | some pair =>
      obtain ⟨wellFormed, after, written, _⟩ := match?_eq_some found
      rcases List.append_eq_append_iff.mp written with
        ⟨reached, whole, tail⟩ | ⟨before, whole, _⟩
      · cases reached with
        | nil =>
            have here := wellFormed.match?_chars []
            simp [whole, notFound] at here
        | cons c reached =>
            have inChars : c ∈ pair.1.chars := by simp [whole]
            have inTrail : c ∈ trail := by simp [tail]
            have contradiction := wellFormed.isForeign_eq_false inChars
            simp [foreign c inTrail] at contradiction
      · have here := wellFormed.match?_chars before
        simp [← whole, notFound] at here

end Reference

namespace Template

theorem atomsFrom_eq_drop (skip : Nat) (text : List Char) :
    atomsFrom skip text = atoms (text.drop skip) := by
  induction text generalizing skip with
  | nil => simp [atoms, atomsFrom]
  | cons c rest induction =>
      cases skip with
      | zero => rfl
      | succ skip => exact induction skip

theorem atoms_cons_of_match?
    {c : Char} {rest : List Char} {target : Reference} {length : Nat}
    (found : Reference.match? (c :: rest) = some (target, length)) :
    atoms (c :: rest) =
      .reference target :: atoms ((c :: rest).drop length) := by
  obtain ⟨_, after, _, rfl⟩ := Reference.match?_eq_some found
  simp only [atoms, atomsFrom, found]
  rw [atomsFrom_eq_drop]
  rfl

theorem atoms_cons_of_no_match {c : Char} {rest : List Char}
    (notFound : Reference.match? (c :: rest) = none) :
    atoms (c :: rest) = .char c :: atoms rest := by
  simp only [atoms, atomsFrom, notFound]

/-- Texts are cut from left to right: what holds of the empty text, of a text
behind a character and of a text behind a reference holds of all texts. -/
theorem atoms_induction
    {motive : List Char → List Atom → Prop} (nil : motive [] [])
    (char : ∀ c rest, Reference.match? (c :: rest) = none →
      motive rest (atoms rest) → motive (c :: rest) (.char c :: atoms rest))
    (reference : ∀ target after,
      target.WellFormed → motive after (atoms after) →
      motive (target.chars ++ after) (.reference target :: atoms after))
    (text : List Char) :
    motive text (atoms text) := by
  induction length : text.length using Nat.strongRecOn generalizing text with
  | _ size induction =>
      cases text with
      | nil => exact nil
      | cons c rest =>
          cases found : Reference.match? (c :: rest) with
          | none =>
              rw [atoms_cons_of_no_match found]
              exact char c rest found
                (induction _ (by simp [← length]) rest rfl)
          | some pair =>
              obtain ⟨wellFormed, after, written, taken⟩ :=
                Reference.match?_eq_some found
              rw [atoms_cons_of_match? found, taken, written, List.drop_left]
              refine reference _ after wellFormed (induction _ ?_ after rfl)
              have sizes := congrArg List.length written
              simp [Reference.chars] at sizes
              simp at length
              omega

theorem atoms_chars_append
    {target : Reference} (wellFormed : target.WellFormed) (after : List Char) :
    atoms (target.chars ++ after) = .reference target :: atoms after := by
  have found := wellFormed.match?_chars after
  obtain ⟨c, rest, shape⟩ : ∃ c rest, target.chars ++ after = c :: rest :=
    ⟨_, _, rfl⟩
  rw [shape] at found ⊢
  rw [atoms_cons_of_match? found, ← shape, List.drop_left]

/-- Nothing of a text is lost when it is cut. -/
theorem flatMap_chars_atoms (text : List Char) :
    (atoms text).flatMap Atom.chars = text := by
  induction text using atoms_induction with
  | nil => rfl
  | char c rest _ induction => simp [Atom.chars, induction]
  | reference target after _ induction => simp [Atom.chars, induction]

theorem wellFormed_of_mem_atoms {text : List Char} {target : Reference}
    (member : .reference target ∈ atoms text) : target.WellFormed := by
  induction text using atoms_induction with
  | nil => cases member
  | char c rest _ induction => exact induction (by simpa using member)
  | reference other after wellFormed induction =>
      rcases List.mem_cons.mp member with here | later
      · cases here
        exact wellFormed
      · exact induction later

theorem atoms_foreign_append {lead : List Char}
    (foreign : ∀ c ∈ lead, Reference.isForeign c = true) (text : List Char) :
    atoms (lead ++ text) = lead.map .char ++ atoms text := by
  induction lead with
  | nil => rfl
  | cons c lead induction =>
      have here : Reference.isForeign c = true := foreign c List.mem_cons_self
      have different : c ≠ '\x7b' := by
        rintro rfl
        exact absurd here (by decide)
      have notFound := Reference.match?_cons_of_ne different (lead ++ text)
      have later :=
        induction fun d member => foreign d (List.mem_cons_of_mem c member)
      rw [List.cons_append, atoms_cons_of_no_match notFound, later]
      rfl

theorem atoms_append_foreign (text : List Char) {trail : List Char}
    (foreign : ∀ c ∈ trail, Reference.isForeign c = true) :
    atoms (text ++ trail) = atoms text ++ trail.map .char := by
  induction text using atoms_induction with
  | nil => simpa [atoms, atomsFrom] using atoms_foreign_append foreign []
  | char c rest notFound induction =>
      have still := Reference.match?_append_eq_none foreign notFound
      rw [List.cons_append] at still ⊢
      rw [atoms_cons_of_no_match still, induction, List.cons_append]
  | reference target after wellFormed induction =>
      rw [List.append_assoc, atoms_chars_append wellFormed, induction,
        List.cons_append]

/-- Blanks at the ends of a text stay where they are when its references are
replaced. -/
theorem exists_substitute_eq
    (replacement : Reference → List Char) (text : List Char) :
    ∃ lead trail, substitute replacement text =
        lead ++ (substitute replacement (Text.trim text) ++ trail) ∧
      (∀ c ∈ lead, Text.isBlank c = true) ∧
      (∀ c ∈ trail, Text.isBlank c = true) := by
  obtain ⟨lead, trail, parts, leadBlank, trailBlank⟩ :=
    Text.exists_eq_append_trim text
  have leadForeign :=
    fun c member => Reference.isForeign_of_isBlank (leadBlank c member)
  have trailForeign :=
    fun c member => Reference.isForeign_of_isBlank (trailBlank c member)
  refine ⟨lead, trail, ?_, leadBlank, trailBlank⟩
  generalize Text.trim text = core at parts ⊢
  subst parts
  simp [substitute, atoms_foreign_append leadForeign,
    atoms_append_foreign _ trailForeign, List.flatMap_map]

end Template

end Workflow
