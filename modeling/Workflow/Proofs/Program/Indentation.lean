import Workflow.Proofs.Program.Layout

/-!
# Code is read back by indentation

When no line of some code is empty, starts with a blank or holds a line end,
and every block has a body, then the code can be told from its text: a line
belongs to the body of the closest header above it that is less indented.
-/

namespace Workflow.Program

open SelfCheck

/-- A line that shows its own indentation when it is indented, and is found
again in a text. -/
structure Neat (text : List Char) : Prop where
  starts : ∃ c ∈ text.head?, c ≠ ' '
  tidy : Code.Tidy text

theorem StandsAlone.neat {text : List Char} (alone : StandsAlone text) :
    Neat text := by
  obtain ⟨c, head, notBlank⟩ := alone.starts
  refine ⟨⟨c, head, ?_⟩, alone.tidy 0⟩
  rintro rfl
  exact absurd notBlank (by decide)

theorem head_margin (level : Nat) (text : List Char) :
    (margin (level + 1) ++ text).head? = some ' ' := by
  have several : 4 * (level + 1) = 4 * level + 3 + 1 := rfl
  rw [margin, several, List.replicate_succ]
  rfl

namespace Neat

variable {text : List Char}

theorem indentWidth (neat : Neat text) (level : Nat) :
    indentWidth (margin level ++ text) = 4 * level := by
  obtain ⟨c, head, noSpace⟩ := neat.starts
  obtain ⟨rest, rfl⟩ : ∃ rest, text = c :: rest :=
    List.head?_eq_some_iff.mp head
  rw [SelfCheck.indentWidth,
    takeWhile_margin (· == ' ') rfl (by simpa using noSpace) level, margin,
    List.length_replicate]

theorem tidy_margin (neat : Neat text) (level : Nat) :
    Code.Tidy (margin level ++ text) := by
  obtain ⟨c, head, _⟩ := neat.starts
  obtain ⟨rest, rfl⟩ : ∃ rest, text = c :: rest :=
    List.head?_eq_some_iff.mp head
  obtain ⟨noFeed, noReturn⟩ := neat.tidy
  constructor
  · intro member
    rcases List.mem_append.mp member with inMargin | inText
    · exact absurd (List.eq_of_mem_replicate inMargin) (by decide)
    · exact noFeed inText
  · rw [List.getLast?_append]
    simpa using noReturn

end Neat

namespace Code

mutual

/-- Every line is neat, and every block has a body. -/
def Neat : Code → Prop
  | .line text => Program.Neat text.toList
  | .blank => False
  | .block header body => Program.Neat header.toList ∧ body ≠ [] ∧ NeatAll body

def NeatAll : List Code → Prop
  | [] => True
  | code :: rest => Neat code ∧ NeatAll rest

end

theorem neatAll_append {first second : List Code} (left : NeatAll first)
    (right : NeatAll second) : NeatAll (first ++ second) := by
  induction first with
  | nil => exact right
  | cons code rest induction => exact ⟨left.1, induction left.2⟩

mutual

/-- A line of neat code is a neat text behind a margin. -/
theorem Neat.exists_margin {code : Code} (neat : code.Neat) (level : Nat) :
    ∀ line ∈ lines level code, ∃ deeper text,
      level ≤ deeper ∧ Program.Neat text ∧ line = margin deeper ++ text := by
  match code with
  | .line text =>
      rw [lines, indentation_toList, List.forall_mem_singleton]
      exact ⟨level, text.toList, Nat.le_refl level, neat, rfl⟩
  | .block header body =>
      rw [lines, indentation_toList, List.forall_mem_cons]
      refine ⟨⟨level, header.toList, Nat.le_refl level, neat.1, rfl⟩, ?_⟩
      intro line member
      obtain ⟨deeper, text, above, isNeat, shape⟩ :=
        NeatAll.exists_margin neat.2.2 (level + 1) line member
      exact ⟨deeper, text, by omega, isNeat, shape⟩

theorem NeatAll.exists_margin
    {codes : List Code} (neat : NeatAll codes) (level : Nat) :
    ∀ line ∈ linesAll level codes, ∃ deeper text,
      level ≤ deeper ∧ Program.Neat text ∧ line = margin deeper ++ text := by
  match codes with
  | [] => simp [linesAll]
  | code :: rest =>
      rw [linesAll, List.forall_mem_append]
      exact ⟨Neat.exists_margin neat.1 level,
        NeatAll.exists_margin neat.2 level⟩

end

theorem NeatAll.tidy {codes : List Code} (neat : NeatAll codes) (level : Nat) :
    ∀ line ∈ linesAll level codes, Tidy line := by
  intro line member
  obtain ⟨deeper, text, _, isNeat, rfl⟩ := neat.exists_margin level line member
  exact isNeat.tidy_margin deeper

theorem NeatAll.head_of_mem
    {codes : List Code} (neat : NeatAll codes) (level : Nat) :
    ∀ line ∈ linesAll (level + 1) codes, line.head? = some ' ' := by
  intro line member
  obtain ⟨deeper, text, above, _, rfl⟩ :=
    neat.exists_margin (level + 1) line member
  obtain ⟨less, rfl⟩ : ∃ less, deeper = less + 1 :=
    Nat.exists_eq_add_one.mpr (by omega)
  exact head_margin less text

mutual

/-- Below a header lines are blank or indented. -/
theorem head_of_mem_lines (code : Code) (level : Nat) :
    ∀ line ∈ lines (level + 1) code, line = [] ∨ line.head? = some ' ' := by
  match code with
  | .line text =>
      rw [lines, indentation_toList, List.forall_mem_singleton]
      right
      exact head_margin level text.toList
  | .blank =>
      rw [lines, List.forall_mem_singleton]
      left
      rfl
  | .block header body =>
      rw [lines, indentation_toList, List.forall_mem_cons]
      refine ⟨?_, head_of_mem_linesAll body (level + 1)⟩
      right
      exact head_margin level header.toList

theorem head_of_mem_linesAll (codes : List Code) (level : Nat) :
    ∀ line ∈ linesAll (level + 1) codes,
      line = [] ∨ line.head? = some ' ' := by
  match codes with
  | [] => simp [linesAll]
  | code :: rest =>
      rw [linesAll, List.forall_mem_append]
      exact ⟨head_of_mem_lines code level, head_of_mem_linesAll rest level⟩

end

/-- The first line, if there is one, is indented less than a level. -/
def Outside (level : Nat) (lines : List (List Char)) : Prop :=
  ∀ text ∈ lines.head?, indentWidth text < 4 * level

theorem exists_lines_eq_cons {code : Code} (neat : code.Neat) (level : Nat) :
    ∃ first rest,
      lines level code = first :: rest ∧ indentWidth first = 4 * level := by
  cases code with
  | line text =>
      refine ⟨margin level ++ text.toList, [], by simp [lines], ?_⟩
      exact Program.Neat.indentWidth neat level
  | blank => cases neat
  | block header body =>
      refine ⟨margin level ++ header.toList, linesAll (level + 1) body,
        by simp [lines], ?_⟩
      exact neat.1.indentWidth level

/-- Lines of code are outside of every deeper level. -/
theorem outside_linesAll
    {codes : List Code} {level : Nat} {rest : List (List Char)}
    (neat : NeatAll codes) (outside : Outside level rest) :
    Outside (level + 1) (linesAll level codes ++ rest) := by
  intro text head
  cases codes with
  | nil =>
      have less := outside text head
      omega
  | cons code codes =>
      obtain ⟨first, later, shape, width⟩ := exists_lines_eq_cons neat.1 level
      rw [linesAll, shape] at head
      obtain rfl : first = text := by simpa using head
      omega

theorem not_outside_of_cons {code : Code} {codes : List Code} {level : Nat}
    {rest : List (List Char)} (neat : code.Neat) :
    ¬ Outside level (linesAll level (code :: codes) ++ rest) := by
  intro outside
  obtain ⟨first, later, shape, width⟩ := exists_lines_eq_cons neat level
  have less := outside first (by simp [linesAll, shape])
  omega

/-- What follows a line is not what follows the header of a block. -/
theorem linesAll_ne_body
    {level : Nat} {codes body : List Code} {behind more : List (List Char)}
    (neat : NeatAll codes) (outside : Outside level behind)
    (neatBody : NeatAll body) (notEmpty : body ≠ []) :
    linesAll level codes ++ behind ≠ linesAll (level + 1) body ++ more := by
  intro same
  obtain ⟨code, rest, rfl⟩ := List.exists_cons_of_ne_nil notEmpty
  have deeper := outside_linesAll neat outside
  rw [same] at deeper
  exact not_outside_of_cons neatBody.1 deeper

/-- Code in front of lines that are less indented is read back from the
lines. -/
theorem linesAll_injective
    {level : Nat} {left right : List Code}
    {behindLeft behindRight : List (List Char)} (neatLeft : NeatAll left)
    (neatRight : NeatAll right) (outsideLeft : Outside level behindLeft)
    (outsideRight : Outside level behindRight)
    (same : linesAll level left ++ behindLeft =
      linesAll level right ++ behindRight) :
    left = right ∧ behindLeft = behindRight := by
  match left, right with
  | [], [] => exact ⟨rfl, same⟩
  | [], code :: rest =>
      rw [linesAll, List.nil_append] at same
      exact absurd (same ▸ outsideLeft) (not_outside_of_cons neatRight.1)
  | code :: rest, [] =>
      have empty : linesAll level [] ++ behindRight = behindRight := rfl
      rw [empty] at same
      exact absurd (same ▸ outsideRight) (not_outside_of_cons neatLeft.1)
  | .line text :: rest, .line other :: others =>
      simp only [linesAll, lines, List.cons_append, List.nil_append,
        List.cons.injEq, List.append_cancel_left_eq, String.toList_inj] at same
      obtain ⟨rfl, later⟩ := same
      obtain ⟨rfl, behind⟩ :=
        linesAll_injective neatLeft.2 neatRight.2 outsideLeft outsideRight
          later
      exact ⟨rfl, behind⟩
  | .block header body :: rest, .block other otherBody :: others =>
      simp only [linesAll, lines, List.cons_append, List.append_assoc,
        List.cons.injEq, List.append_cancel_left_eq, String.toList_inj] at same
      obtain ⟨rfl, later⟩ := same
      obtain ⟨rfl, behindBody⟩ :=
        linesAll_injective neatLeft.1.2.2 neatRight.1.2.2
          (outside_linesAll neatLeft.2 outsideLeft)
          (outside_linesAll neatRight.2 outsideRight) later
      obtain ⟨rfl, behind⟩ :=
        linesAll_injective neatLeft.2 neatRight.2 outsideLeft outsideRight
          behindBody
      exact ⟨rfl, behind⟩
  | .line text :: rest, .block header body :: others =>
      simp only [linesAll, lines, List.cons_append, List.nil_append,
        List.append_assoc, List.cons.injEq] at same
      obtain ⟨_, notEmpty, neatBody⟩ := neatRight.1
      exact absurd same.2
        (linesAll_ne_body neatLeft.2 outsideLeft neatBody notEmpty)
  | .block header body :: rest, .line text :: others =>
      simp only [linesAll, lines, List.cons_append, List.nil_append,
        List.append_assoc, List.cons.injEq] at same
      obtain ⟨_, notEmpty, neatBody⟩ := neatLeft.1
      exact absurd same.2.symm
        (linesAll_ne_body neatRight.2 outsideRight neatBody notEmpty)

/-- Neat code is told from its lines. -/
theorem lines_injective
    {left right : Code} (neatLeft : left.Neat) (neatRight : right.Neat)
    (same : lines 0 left = lines 0 right) :
    left = right := by
  have sameLines : linesAll 0 [left] ++ [] = linesAll 0 [right] ++ [] := by
    simp only [linesAll, same]
  have nothing : Outside 0 [] := by simp [Outside]
  have onlyLeft : NeatAll [left] := ⟨neatLeft, trivial⟩
  have onlyRight : NeatAll [right] := ⟨neatRight, trivial⟩
  have read := linesAll_injective onlyLeft onlyRight nothing nothing sameLines
  exact List.head_eq_of_cons_eq read.1

end Code

end Workflow.Program
