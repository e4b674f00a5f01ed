import Mathlib.Data.List.Chain
import Workflow.Proofs.Reference.Atoms
import Workflow.Proofs.Reference.Mentions

/-!
# Templates and their segments

Cutting a template into segments and writing segments one behind the other undo
each other.  The segments that can come out of a template are the canonical
ones: no literal is empty, holds a double brace or stands next to another
literal, and every reference is well formed.  Any canonical segments are found
again, whatever single braces stand at the ends of their literals.
-/

namespace Workflow.Template

/-- The braces that a reference starts with. -/
def doubleBrace : List Char :=
  ['\x7b', '\x7b']

namespace Segment

/-- A literal that is not empty and holds no double brace, or a well-formed
reference. -/
def Proper : Segment → Prop
  | .literal text => text.toList ≠ [] ∧ ¬ doubleBrace <:+: text.toList
  | .reference target => target.WellFormed

def isLiteral : Segment → Bool
  | .literal _ => true
  | .reference _ => false

/-- The atoms that a segment is joined from. -/
def atoms : Segment → List Atom
  | .literal text => text.toList.map .char
  | .reference target => [.reference target]

/-- Two segments may stand side by side unless both are literals. -/
def Beside (left right : Segment) : Prop :=
  left.isLiteral = false ∨ right.isLiteral = false

end Segment

/-- Segments that come out of a template. -/
structure Canonical (pieces : List Segment) : Prop where
  proper : ∀ piece ∈ pieces, piece.Proper
  beside : pieces.IsChain Segment.Beside

theorem canonical_cons {piece : Segment} {rest : List Segment} :
    Canonical (piece :: rest) ↔
      piece.Proper ∧ (∀ next ∈ rest.head?, piece.Beside next) ∧
      Canonical rest := by
  constructor
  · intro canonical
    obtain ⟨here, later⟩ := List.forall_mem_cons.mp canonical.proper
    obtain ⟨next, chain⟩ := List.isChain_cons.mp canonical.beside
    exact ⟨here, next, later, chain⟩
  · rintro ⟨here, next, later, chain⟩
    exact ⟨List.forall_mem_cons.mpr ⟨here, later⟩,
      List.isChain_cons.mpr ⟨next, chain⟩⟩

/-- Segments, written one behind the other. -/
def written (pieces : List Segment) : String :=
  String.join (pieces.map Segment.render)

theorem written_toList (pieces : List Segment) :
    (written pieces).toList =
      pieces.flatMap fun piece => piece.render.toList := by
  rw [written, String.toList_join, List.flatMap_map]

theorem flatMap_chars_segmentAtoms (piece : Segment) :
    piece.atoms.flatMap Atom.chars = piece.render.toList := by
  cases piece with
  | literal text =>
      simp [Segment.atoms, Segment.render, List.flatMap_map, Atom.chars,
        List.flatMap_singleton']
  | reference target =>
      simp [Segment.atoms, Segment.render, Reference.render, Atom.chars]

theorem openBraces?_eq_none_iff {text : List Char} :
    openBraces? text = none ↔ ¬ doubleBrace <:+: text := by
  induction text with
  | nil => simp [openBraces?, doubleBrace]
  | cons c rest induction =>
      rw [openBraces?, List.infix_cons_iff, not_or, ← induction]
      split
      · rename_i starts
        have isPrefix : doubleBrace <+: c :: rest :=
          List.isPrefixOf_iff_prefix.mp starts
        simp [isPrefix]
      · rename_i starts
        have noPrefix : ¬ doubleBrace <+: c :: rest :=
          fun isPrefix => starts (List.isPrefixOf_iff_prefix.mpr isPrefix)
        simp [noPrefix]

theorem malformed?_eq_none_of_proper
    {piece : Segment} (proper : piece.Proper) :
    piece.malformed? = none := by
  cases piece with
  | literal text =>
      rw [Segment.malformed?, openBraces?_eq_none_iff.mpr proper.2]
      rfl
  | reference target => rfl

theorem flatMap_atoms_closeLiteral (reversed : List Char) :
    (closeLiteral reversed).flatMap Segment.atoms =
      reversed.reverse.map .char := by
  unfold closeLiteral
  split
  · rename_i empty
    simp [List.isEmpty_iff.mp empty]
  · simp [Segment.atoms]

/-- Joining atoms into segments loses none of them. -/
theorem flatMap_atoms_segmentsFrom (reversed : List Char) (atoms : List Atom) :
    (segmentsFrom reversed atoms).flatMap Segment.atoms =
      reversed.reverse.map .char ++ atoms := by
  induction atoms generalizing reversed with
  | nil => rw [segmentsFrom, flatMap_atoms_closeLiteral, List.append_nil]
  | cons atom rest induction =>
      cases atom with
      | char c => simp [segmentsFrom, induction]
      | reference target =>
          simp [segmentsFrom, flatMap_atoms_closeLiteral, Segment.atoms,
            induction]

theorem isChain_closeLiteral (reversed : List Char) :
    (closeLiteral reversed).IsChain Segment.Beside := by
  unfold closeLiteral
  split
  · exact .nil
  · exact .singleton _

/-- The literal in front of a reference does not touch another one. -/
theorem isChain_segmentsFrom (reversed : List Char) (atoms : List Atom) :
    (segmentsFrom reversed atoms).IsChain Segment.Beside := by
  induction atoms generalizing reversed with
  | nil => exact isChain_closeLiteral reversed
  | cons atom rest induction =>
      cases atom with
      | char c => exact induction (c :: reversed)
      | reference target =>
          have behind :
              (Segment.reference target :: segmentsFrom [] rest).IsChain
                Segment.Beside := by
            apply List.isChain_cons.mpr
            refine ⟨?_, induction []⟩
            intro next _
            exact .inl rfl
          apply List.isChain_append.mpr
          refine ⟨isChain_closeLiteral reversed, behind, ?_⟩
          rintro last _ _ ⟨⟩
          exact .inr rfl

theorem literal_ne_nil_of_mem_segmentsFrom
    {reversed : List Char} {atoms : List Atom} {text : String}
    (member : .literal text ∈ segmentsFrom reversed atoms) :
    text.toList ≠ [] := by
  have closed {reversed : List Char}
    (member : .literal text ∈ closeLiteral reversed) :
      text.toList ≠ [] := by
    unfold closeLiteral at member
    split at member
    · cases member
    · rename_i occupied
      obtain rfl := Segment.literal.inj (List.mem_singleton.mp member)
      simpa using occupied
  induction atoms generalizing reversed with
  | nil => exact closed member
  | cons atom rest induction =>
      cases atom with
      | char c => exact induction member
      | reference target =>
          rcases List.mem_append.mp member with inLiteral | behind
          · exact closed inLiteral
          · rcases List.mem_cons.mp behind with same | later
            · cases same
            · exact induction later

/-- A template is its segments, and they are canonical. -/
theorem canonical_of_segments
    {text : String} {pieces : List Segment}
    (template : segments text = .ok pieces) :
    Canonical pieces ∧ written pieces = text := by
  obtain rfl := segments_eq_ok template
  have noneMalformed :
      (segmentsFrom [] (atoms text.toList)).findSome? Segment.malformed? =
        none := by
    simp only [segments] at template
    split at template
    · cases template
    · assumption
  have sameAtoms := flatMap_atoms_segmentsFrom [] (atoms text.toList)
  rw [List.reverse_nil, List.map_nil, List.nil_append] at sameAtoms
  refine ⟨⟨?_, isChain_segmentsFrom [] _⟩, ?_⟩
  · intro piece member
    cases piece with
    | literal literal =>
        have notMalformed :=
          List.findSome?_eq_none_iff.mp noneMalformed _ member
        refine ⟨literal_ne_nil_of_mem_segmentsFrom member,
          openBraces?_eq_none_iff.mp ?_⟩
        simpa [Segment.malformed?] using notMalformed
    | reference target =>
        have inAtoms : .reference target ∈ atoms text.toList := by
          rw [← sameAtoms]
          exact List.mem_flatMap.mpr ⟨_, member, List.mem_singleton.mpr rfl⟩
        exact wellFormed_of_mem_atoms inAtoms
  · apply String.toList_inj.mp
    calc (written (segmentsFrom [] (atoms text.toList))).toList
        = (segmentsFrom [] (atoms text.toList)).flatMap fun piece =>
            piece.atoms.flatMap Atom.chars := by
          simp only [written_toList, flatMap_chars_segmentAtoms]
      _ = (atoms text.toList).flatMap Atom.chars := by
        rw [← List.flatMap_assoc, sameAtoms]
      _ = text.toList := flatMap_chars_atoms text.toList

/-- What may follow a literal: nothing, or a reference. -/
def Ends (after : List Char) : Prop :=
  after = [] ∨
  ∃ target more, target.WellFormed ∧ after = Reference.chars target ++ more

theorem match?_cons_cons_of_ne
    {c d : Char} (different : d ≠ '\x7b') (rest : List Char) :
    Reference.match? (c :: d :: rest) = none := by
  unfold Reference.match?
  split
  · rename_i same
    exact absurd (List.cons.inj (List.cons.inj same).2).1 different
  · rfl

/-- A third brace is no root, so that a brace in front of a reference stays
outside of it. -/
theorem match?_brace_chars (target : Reference) (more : List Char) :
    Reference.match? ('\x7b' :: (target.chars ++ more)) = none := by
  have noInner : Reference.isInner '\x7b' = false := by decide
  simp [Reference.chars_eq, Reference.match?, noInner]

/-- No reference starts inside of a literal without double braces. -/
theorem match?_literal_append {c : Char} {rest after : List Char}
    (noBraces : ¬ doubleBrace <:+: c :: rest) (ends : Ends after) :
    Reference.match? (c :: (rest ++ after)) = none := by
  by_cases brace : c = '\x7b'
  · subst brace
    cases rest with
    | nil =>
        rcases ends with rfl | ⟨target, more, _, rfl⟩
        · rfl
        · exact match?_brace_chars target more
    | cons d rest =>
        apply match?_cons_cons_of_ne
        rintro rfl
        exact noBraces ⟨[], rest, rfl⟩
  · exact Reference.match?_cons_of_ne brace _

theorem atoms_literal_append {literal after : List Char}
    (noBraces : ¬ doubleBrace <:+: literal) (ends : Ends after) :
    atoms (literal ++ after) = literal.map .char ++ atoms after := by
  induction literal with
  | nil => rfl
  | cons c rest induction =>
      have later : ¬ doubleBrace <:+: rest :=
        fun inside => noBraces (List.infix_cons_iff.mpr (.inr inside))
      rw [List.cons_append,
        atoms_cons_of_no_match (match?_literal_append noBraces ends),
        induction later]
      rfl

theorem Canonical.ends
    {piece : Segment} {rest : List Segment}
    (canonical : Canonical (piece :: rest))
    (literal : piece.isLiteral = true) :
    Ends (written rest).toList := by
  obtain ⟨_, next, later⟩ := canonical_cons.mp canonical
  cases rest with
  | nil => exact .inl rfl
  | cons second rest =>
      rcases next second rfl with notLiteral | notLiteral
      · simp [literal] at notLiteral
      · cases second with
        | literal text => cases notLiteral
        | reference target =>
            obtain ⟨wellFormed, _, _⟩ := canonical_cons.mp later
            refine .inr ⟨target, (written rest).toList, wellFormed, ?_⟩
            simp [written_toList, Segment.render, Reference.render]

/-- Canonical segments are cut into the atoms they are joined from. -/
theorem atoms_written {pieces : List Segment} (canonical : Canonical pieces) :
    atoms (written pieces).toList = pieces.flatMap Segment.atoms := by
  induction pieces with
  | nil => rfl
  | cons piece rest induction =>
      obtain ⟨proper, _, later⟩ := canonical_cons.mp canonical
      have split : (written (piece :: rest)).toList =
          piece.render.toList ++ (written rest).toList := by
        simp [written_toList]
      rw [split, List.flatMap_cons, ← induction later]
      cases piece with
      | literal text =>
          exact atoms_literal_append proper.2 (canonical.ends rfl)
      | reference target =>
          have chars :
              (Segment.reference target).render.toList = target.chars := by
            simp [Segment.render, Reference.render]
          rw [chars]
          exact atoms_chars_append proper _

theorem segmentsFrom_literal
    (reversed literal : List Char) (rest : List Atom) :
    segmentsFrom reversed (literal.map .char ++ rest) =
      segmentsFrom (literal.reverse ++ reversed) rest := by
  induction literal generalizing reversed with
  | nil => rfl
  | cons c literal induction =>
      rw [List.map_cons, List.cons_append, segmentsFrom, induction,
        List.reverse_cons, List.append_assoc, List.singleton_append]

/-- Canonical segments are joined again, behind a literal that does not touch
them. -/
theorem segmentsFrom_flatMap_atoms
    {pieces : List Segment} (canonical : Canonical pieces)
    {reversed : List Char}
    (free : reversed = [] ∨ ∀ piece ∈ pieces.head?, piece.isLiteral = false) :
    segmentsFrom reversed (pieces.flatMap Segment.atoms) =
      closeLiteral reversed ++ pieces := by
  induction pieces generalizing reversed with
  | nil => simp [segmentsFrom]
  | cons piece rest induction =>
      obtain ⟨proper, next, later⟩ := canonical_cons.mp canonical
      cases piece with
      | literal text =>
          obtain rfl : reversed = [] := by simpa [Segment.isLiteral] using free
          have apart : ∀ second ∈ rest.head?, second.isLiteral = false := by
            intro second isNext
            simpa [Segment.Beside, Segment.isLiteral] using next second isNext
          have occupied : text.toList.reverse.isEmpty = false := by
            simpa using proper.1
          rw [List.flatMap_cons, Segment.atoms, segmentsFrom_literal,
            List.append_nil, induction later (.inr apart), closeLiteral,
            occupied]
          simp [closeLiteral]
      | reference target =>
          have joined := induction later (.inl rfl)
          simp only [List.flatMap_cons, Segment.atoms, List.singleton_append,
            segmentsFrom, joined]
          rfl

/-- Canonical segments are the segments of the template that they are written
as. -/
theorem segments_written
    {pieces : List Segment} (canonical : Canonical pieces) :
    segments (written pieces) = .ok pieces := by
  have joined : segmentsFrom [] (atoms (written pieces).toList) = pieces := by
    rw [atoms_written canonical,
      segmentsFrom_flatMap_atoms canonical (.inl rfl)]
    rfl
  have noneMalformed : pieces.findSome? Segment.malformed? = none := by
    apply List.findSome?_eq_none_iff.mpr
    intro piece member
    exact malformed?_eq_none_of_proper (canonical.proper piece member)
  simp only [segments, joined, noneMalformed]

/-- Templates and canonical segments correspond one to one: the segments of a
template are the canonical ones that are written like it, its references are
those of its segments in order, and a text is exactly one reference when that
is its only segment. -/
theorem segments_eq_ok_iff_canonical (text : String) :
    (∀ pieces,
      segments text = .ok pieces ↔ Canonical pieces ∧ written pieces = text) ∧
      (∀ pieces, segments text = .ok pieces →
        pieces.filterMap Segment.reference? = references text) ∧
      ∀ target, exactly? text = some target ↔
        segments text = .ok [.reference target] := by
  refine ⟨?_, ?_, ?_⟩
  · intro pieces
    constructor
    · exact canonical_of_segments
    · rintro ⟨canonical, rfl⟩
      exact segments_written canonical
  · intro pieces template
    rw [segments_eq_ok template, filterMap_segmentsFrom]
    rfl
  · intro target
    rw [exactly?_eq_some_iff]
    constructor
    · intro isAtom
      simp [segments, isAtom, segmentsFrom, closeLiteral, Segment.malformed?]
    · intro template
      obtain ⟨canonical, rfl⟩ := canonical_of_segments template
      exact atoms_written canonical

/-- Of three braces on either side two belong to the reference and one to a
literal. -/
theorem segments_eq_ok_iff_canonical_threeBraces :
    segments "\x7b\x7b\x7ba.0\x7d\x7d\x7d" =
        .ok [.literal "\x7b", .reference ⟨"a", ["0"]⟩, .literal "\x7d"] ∧
      references "\x7b\x7b\x7ba.0\x7d\x7d\x7d" = [⟨"a", ["0"]⟩] := by
  have template : segments "\x7b\x7b\x7ba.0\x7d\x7d\x7d" =
      .ok [.literal "\x7b", .reference ⟨"a", ["0"]⟩, .literal "\x7d"] := by
    decide +kernel
  exact ⟨template, ((segments_eq_ok_iff_canonical _).2.1 _ template).symm⟩

end Workflow.Template
