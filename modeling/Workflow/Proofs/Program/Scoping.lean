import Workflow.Proofs.Program.LocalFunctions

/-!
# Definitions in force

A program shows its blocks by indentation alone.  A definition is in force at a
later line when the block that it stands in is still open there and both lines
belong to the body of the same function; then nothing can run the later line
before the definition.  Code in which every use is covered by a definition in
front of it, in its own block or a block around it, has lines in which every
use finds its definition in force.
-/

namespace Workflow.Program

open SelfCheck Code

/-- A definition is in force for a line that is indented by a width, behind the
lines between them: no line since the definition closes its block, and each
function that starts with the definition or later has ended. -/
structure InForce
    (width : Nat) (definition : List Char) (between : List (List Char)) :
    Prop where
  atLeast : indentWidth definition ≤ width
  blockOpen : ∀ line ∈ between, indentWidth definition ≤ indentWidth line
  ended : ∀ header body, header :: body <:+ definition :: between →
    (definedName? header).isSome = true →
      (∀ line ∈ body, indentWidth header < indentWidth line) →
      width ≤ indentWidth header

/-- One of the lines defines the name, and the definition is in force behind
them. -/
def Defined (name : String) (width : Nat) (lines : List (List Char)) : Prop :=
  ∃ definition between,
    definition :: between <:+ lines ∧ definedName? definition = some name ∧
    InForce width definition between

/-- Whatever a line uses is defined in the lines before it, or in those that
come earlier. -/
def UsesDefined (earlier lines : List (List Char)) : Prop :=
  ∀ before use after, lines = before ++ use :: after →
    ∀ name ∈ usedNames use, Defined name (indentWidth use) (earlier ++ before)

theorem usesDefined_nil (earlier : List (List Char)) :
    UsesDefined earlier [] := by
  intro before use after shape
  simp at shape

theorem usesDefined_cons
    {earlier lines : List (List Char)} {line : List Char}
    (here : ∀ name ∈ usedNames line, Defined name (indentWidth line) earlier)
    (later : UsesDefined (earlier ++ [line]) lines) :
    UsesDefined earlier (line :: lines) := by
  intro before use after shape
  cases before with
  | nil =>
      obtain ⟨rfl, rfl⟩ := List.cons.inj shape
      rw [List.append_nil]
      exact here
  | cons first before =>
      obtain ⟨rfl, rest⟩ := List.cons.inj shape
      have found := later before use after rest
      rwa [List.append_assoc, List.singleton_append] at found

theorem usesDefined_append
    {earlier lines more : List (List Char)} (first : UsesDefined earlier lines)
    (second : UsesDefined (earlier ++ lines) more) :
    UsesDefined earlier (lines ++ more) := by
  induction lines generalizing earlier with
  | nil => rwa [List.append_nil] at second
  | cons line lines induction =>
      apply usesDefined_cons
      · have here := first [] line lines rfl
        rwa [List.append_nil] at here
      · apply induction
        · intro before use after shape
          have found := first (line :: before) use after (by rw [shape]; rfl)
          rwa [List.append_assoc, List.singleton_append]
        · rwa [List.append_assoc, List.singleton_append]

/-- A line and what follows it, found at the end of two runs of lines. -/
theorem mem_or_suffix_of_suffix_append
    {header : List Char} {body lines more : List (List Char)}
    (isEnd : header :: body <:+ lines ++ more) :
    header ∈ more ∨
    ∃ others, body = others ++ more ∧ header :: others <:+ lines := by
  obtain ⟨front, shape⟩ := isEnd
  rcases List.append_eq_append_iff.mp shape with
    ⟨others, inLines, rest⟩ | ⟨others, _, inMore⟩
  · cases others with
    | nil => exact .inl (by simp [← show header :: body = more from rest])
    | cons first others =>
        obtain ⟨rfl, rfl⟩ := List.cons.inj rest
        exact .inr ⟨others, rfl, front, inLines.symm⟩
  · exact .inl (by simp [inMore])

section

variable {width : Nat} {definition : List Char} {between : List (List Char)}

/-- Lines at the width or deeper leave a definition in force. -/
theorem InForce.append
    (inForce : InForce width definition between) {more : List (List Char)}
    (deep : ∀ line ∈ more, width ≤ indentWidth line) :
    InForce width definition (between ++ more) where
  atLeast := inForce.atLeast
  blockOpen := by
    rw [List.forall_mem_append]
    refine ⟨inForce.blockOpen, ?_⟩
    intro line member
    exact Nat.le_trans inForce.atLeast (deep line member)
  ended header body isEnd isFunction inside := by
    rw [← List.cons_append] at isEnd
    rcases mem_or_suffix_of_suffix_append isEnd with
      inMore | ⟨others, rfl, earlier⟩
    · exact deep header inMore
    · apply inForce.ended header others earlier isFunction
      intro line member
      exact inside line (List.mem_append_left more member)

/-- A header that defines nothing leaves what is in force to its body. -/
theorem InForce.enter
    (inForce : InForce width definition between) {header : List Char}
    {inner : Nat} (deeper : width ≤ inner)
    (atWidth : indentWidth header = width)
    (noFunction : definedName? header = none) :
    InForce inner definition (between ++ [header]) where
  atLeast := Nat.le_trans inForce.atLeast deeper
  blockOpen := by
    rw [List.forall_mem_append, List.forall_mem_singleton, atWidth]
    exact ⟨inForce.blockOpen, inForce.atLeast⟩
  ended function body isEnd isFunction inside := by
    rw [← List.cons_append] at isEnd
    rcases mem_or_suffix_of_suffix_append isEnd with
      isHeader | ⟨others, rfl, earlier⟩
    · obtain rfl := List.mem_singleton.mp isHeader
      simp [noFunction] at isFunction
    · -- a function that is still open would have to be less indented than
      -- the header
      rw [List.forall_mem_append, List.forall_mem_singleton, atWidth] at inside
      have outside := inForce.ended function others earlier isFunction inside.1
      omega

/-- A function is in force behind its body. -/
theorem inForce_function {header : List Char} {body : List (List Char)}
    (inside : ∀ line ∈ body, indentWidth header < indentWidth line) :
    InForce (indentWidth header) header body where
  atLeast := Nat.le_refl _
  blockOpen line member := Nat.le_of_lt (inside line member)
  ended function rest isEnd _ _ := by
    have member : function ∈ header :: body := isEnd.subset List.mem_cons_self
    rcases List.mem_cons.mp member with rfl | inBody
    · exact Nat.le_refl _
    · exact Nat.le_of_lt (inside function inBody)

end

section

variable {name : String} {width : Nat} {lines more : List (List Char)}

theorem Defined.append
    (defined : Defined name width lines)
    (deep : ∀ line ∈ more, width ≤ indentWidth line) :
    Defined name width (lines ++ more) := by
  obtain ⟨definition, between, ⟨front, shape⟩, isName, inForce⟩ := defined
  refine ⟨definition, between ++ more, ⟨front, ?_⟩, isName,
    inForce.append deep⟩
  rw [← shape, List.append_assoc, List.cons_append]

theorem Defined.enter
    (defined : Defined name width lines) {header : List Char} {inner : Nat}
    (deeper : width ≤ inner) (atWidth : indentWidth header = width)
    (noFunction : definedName? header = none) :
    Defined name inner (lines ++ [header]) := by
  obtain ⟨definition, between, ⟨front, shape⟩, isName, inForce⟩ := defined
  refine ⟨definition, between ++ [header], ⟨front, ?_⟩, isName,
    inForce.enter deeper atWidth noFunction⟩
  rw [← shape, List.append_assoc, List.cons_append]

end

namespace Code

/-- The name that a piece of code defines for what follows it in its block. -/
def introduces : Code → List String
  | .block header _ => (definedName? header.toList).toList
  | _ => []

mutual

/-- Every function that code uses is known in front of it, or defined before
the use in the same block or a block around it.  The body of a function starts
with nothing known. -/
def Resolved (known : List String) : Code → Prop
  | .line text => usedNames text.toList ⊆ known
  | .blank => True
  | .block header body =>
      usedNames header.toList ⊆ known ∧
        ResolvedAll (if (definedName? header.toList).isSome then [] else known)
          body

def ResolvedAll (known : List String) : List Code → Prop
  | [] => True
  | code :: rest =>
      Resolved known code ∧ ResolvedAll (introduces code ++ known) rest

end

mutual

theorem Resolved.mono
    {known more : List String} (subset : known ⊆ more) {code : Code}
    (resolved : Resolved known code) :
    Resolved more code := by
  match code with
  | .line text => exact List.Subset.trans resolved subset
  | .blank => trivial
  | .block header body =>
      refine ⟨List.Subset.trans resolved.1 subset,
        ResolvedAll.mono ?_ resolved.2⟩
      split
      · exact List.Subset.refl []
      · exact subset

theorem ResolvedAll.mono
    {known more : List String} (subset : known ⊆ more) {codes : List Code}
    (resolved : ResolvedAll known codes) :
    ResolvedAll more codes := by
  match codes with
  | [] => trivial
  | code :: rest =>
      refine ⟨Resolved.mono subset resolved.1, ResolvedAll.mono ?_ resolved.2⟩
      exact List.append_subset.mpr ⟨List.subset_append_left _ _,
        List.Subset.trans subset (List.subset_append_right _ _)⟩

end

/-- Code may use what the code in front of it introduces. -/
theorem ResolvedAll.append
    {known wanted : List String} {codes more : List Code}
    (first : ResolvedAll known codes) (second : ResolvedAll wanted more)
    (given : ∀ name ∈ wanted,
      name ∈ known ∨ ∃ code ∈ codes, name ∈ introduces code) :
    ResolvedAll known (codes ++ more) := by
  induction codes generalizing known with
  | nil =>
      apply ResolvedAll.mono _ second
      intro name member
      simpa using given name member
  | cons code rest induction =>
      refine ⟨first.1, induction first.2 ?_⟩
      intro name member
      rcases given name member with isKnown | ⟨other, inCodes, introduced⟩
      · exact .inl (List.mem_append_right _ isKnown)
      · rcases List.mem_cons.mp inCodes with rfl | inRest
        · exact .inl (List.mem_append_left _ introduced)
        · exact .inr ⟨other, inRest, introduced⟩

theorem deep_of_mem_linesAll
    {codes : List Code} (neat : NeatAll codes) (level : Nat) :
    ∀ line ∈ linesAll level codes, 4 * level ≤ indentWidth line := by
  intro line member
  obtain ⟨deeper, text, above, isNeat, rfl⟩ :=
    neat.exists_margin level line member
  rw [isNeat.indentWidth]
  omega

theorem deep_of_mem_lines {code : Code} (neat : code.Neat) (level : Nat) :
    ∀ line ∈ lines level code, 4 * level ≤ indentWidth line := by
  have alone : NeatAll [code] := ⟨neat, trivial⟩
  simpa [linesAll] using deep_of_mem_linesAll alone level

/-- What code introduces is defined behind its lines. -/
theorem defined_of_mem_introduces
    {code : Code} (neat : code.Neat) {name : String}
    (member : name ∈ introduces code) (level : Nat)
    (earlier : List (List Char)) :
    Defined name (4 * level) (earlier ++ lines level code) := by
  cases code with
  | line text => cases member
  | blank => cases member
  | block header body =>
      obtain ⟨isNeat, _, neatBody⟩ := neat
      have width : indentWidth (margin level ++ header.toList) = 4 * level :=
        isNeat.indentWidth level
      have inside : ∀ line ∈ linesAll (level + 1) body,
          indentWidth (margin level ++ header.toList) < indentWidth line := by
        intro line inBody
        have deep := deep_of_mem_linesAll neatBody (level + 1) line inBody
        omega
      rw [lines, indentation_toList]
      refine ⟨_, _, List.suffix_append _ _, ?_, ?_⟩
      · rw [definedName?_margin]
        simpa [introduces] using member
      · have inForce := inForce_function inside
        rwa [width] at inForce

mutual

/-- In the lines of resolved code every use finds its definition in force. -/
theorem usesDefined_lines
    {code : Code} (neat : code.Neat) {known : List String}
    (resolved : Resolved known code) (level : Nat) {earlier : List (List Char)}
    (reached : ∀ name ∈ known, Defined name (4 * level) earlier) :
    UsesDefined earlier (lines level code) := by
  match code with
  | .line text =>
      rw [lines, indentation_toList]
      apply usesDefined_cons
      · rw [usedNames_margin, Program.Neat.indentWidth neat]
        intro name member
        exact reached name (resolved member)
      · exact usesDefined_nil _
  | .block header body =>
      obtain ⟨isNeat, _, neatBody⟩ := neat
      obtain ⟨ofHeader, ofBody⟩ := resolved
      have width : indentWidth (margin level ++ header.toList) = 4 * level :=
        isNeat.indentWidth level
      rw [lines, indentation_toList]
      apply usesDefined_cons
      · rw [usedNames_margin, width]
        intro name member
        exact reached name (ofHeader member)
      · apply usesDefined_linesAll neatBody ofBody
        intro name member
        -- a function knows nothing of what is around it; any other block keeps
        -- what is in force
        split at member
        · cases member
        · rename_i noFunction
          have none : definedName? (margin level ++ header.toList) = none := by
            rw [definedName?_margin]
            simpa using noFunction
          exact (reached name member).enter (by omega) width none

theorem usesDefined_linesAll
    {codes : List Code} (neat : NeatAll codes) {known : List String}
    (resolved : ResolvedAll known codes) (level : Nat)
    {earlier : List (List Char)}
    (reached : ∀ name ∈ known, Defined name (4 * level) earlier) :
    UsesDefined earlier (linesAll level codes) := by
  match codes with
  | [] => exact usesDefined_nil earlier
  | code :: rest =>
      obtain ⟨neatCode, neatRest⟩ := neat
      obtain ⟨ofCode, ofRest⟩ := resolved
      rw [linesAll]
      apply usesDefined_append
        (usesDefined_lines neatCode ofCode level reached)
      apply usesDefined_linesAll neatRest ofRest level
      intro name member
      rcases List.mem_append.mp member with introduced | isKnown
      · exact defined_of_mem_introduces neatCode introduced level earlier
      · exact (reached name isKnown).append (deep_of_mem_lines neatCode level)

end

end Code

end Workflow.Program
