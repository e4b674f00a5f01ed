import Workflow.Text.Span

/-!
# Pieces and ends of a text

Cutting a text at a separator loses nothing, and pieces without separators are
found again.  Trimming takes a run of blanks off both ends, and a blank is
never a letter, a digit or a sign of the language.
-/

namespace Workflow.Text

variable (separator : Char)

/-- The pieces of a text, with the separators put back, are the text. -/
theorem pieces_eq_cons (text : List Char) :
    ∃ first rest, pieces separator text = first :: rest ∧
      text = first ++ rest.flatMap (separator :: ·) := by
  induction text with
  | nil => exact ⟨[], [], rfl, rfl⟩
  | cons c text induction =>
      obtain ⟨first, rest, cut, joined⟩ := induction
      by_cases same : c = separator
      · refine ⟨[], first :: rest, by simp [pieces, same, cut], ?_⟩
        simp [same, joined]
      · refine ⟨c :: first, rest, by simp [pieces, same, cut], ?_⟩
        simp [joined]

variable {separator}

theorem mem_of_mem_pieces
    {text piece : List Char} (member : piece ∈ pieces separator text)
    {c : Char} (inPiece : c ∈ piece) :
    c ∈ text ∧ c ≠ separator := by
  induction text generalizing piece with
  | nil =>
      obtain rfl := List.mem_singleton.mp member
      cases inPiece
  | cons d text induction =>
      by_cases same : d = separator
      · simp only [pieces, same, if_true, List.mem_cons] at member
        rcases member with rfl | later
        · cases inPiece
        · have inText := induction later inPiece
          exact ⟨List.mem_cons_of_mem _ inText.1, inText.2⟩
      · obtain ⟨first, rest, cut, _⟩ := pieces_eq_cons separator text
        simp only [pieces, same, if_false, cut,
          List.mem_cons] at member induction
        rcases member with rfl | later
        · rcases List.mem_cons.mp inPiece with rfl | behind
          · exact ⟨List.mem_cons_self, same⟩
          · have inText := induction (.inl rfl) behind
            exact ⟨List.mem_cons_of_mem _ inText.1, inText.2⟩
        · have inText := induction (.inr later) inPiece
          exact ⟨List.mem_cons_of_mem _ inText.1, inText.2⟩

theorem pieces_append {start text first : List Char} {rest : List (List Char)}
    (noSeparator : ∀ c ∈ start, c ≠ separator)
    (cut : pieces separator text = first :: rest) :
    pieces separator (start ++ text) = (start ++ first) :: rest := by
  induction start with
  | nil => exact cut
  | cons c start induction =>
      have different : c ≠ separator := noSeparator c List.mem_cons_self
      have ofRest :=
        induction fun d member => noSeparator d (List.mem_cons_of_mem c member)
      simp [pieces, different, ofRest]

/-- Pieces without separators are found again in the text that joins them. -/
theorem pieces_flatMap {first : List Char} {rest : List (List Char)}
    (noSeparator : ∀ piece ∈ first :: rest, ∀ c ∈ piece, c ≠ separator) :
    pieces separator (first ++ rest.flatMap (separator :: ·)) =
      first :: rest := by
  induction rest generalizing first with
  | nil =>
      have cut : pieces separator [] = [[]] := rfl
      simpa using pieces_append (noSeparator first List.mem_cons_self) cut
  | cons piece rest induction =>
      have later := induction fun other member =>
        noSeparator other (List.mem_cons_of_mem first member)
      have cut : pieces separator ((piece :: rest).flatMap (separator :: ·)) =
          [] :: piece :: rest := by
        simp [pieces, later]
      simpa using pieces_append (noSeparator first List.mem_cons_self) cut

theorem isLower_iff_toNat {c : Char} :
    c.isLower = true ↔ 97 ≤ c.toNat ∧ c.toNat ≤ 122 := by
  have lower :
      c.isLower = (decide (c.val ≥ 'a'.val) && decide (c.val ≤ 'z'.val)) := rfl
  simp [lower, UInt32.le_iff_toNat_le]

theorem isAlpha_iff_toNat {c : Char} :
    c.isAlpha = true ↔
      65 ≤ c.toNat ∧ c.toNat ≤ 90 ∨ 97 ≤ c.toNat ∧ c.toNat ≤ 122 := by
  have upper : c.isUpper = decide (c.val ≥ 'A'.val ∧ c.val ≤ 'Z'.val) := rfl
  have alpha : c.isAlpha = (c.isUpper || c.isLower) := rfl
  rw [alpha, Bool.or_eq_true, isLower_iff_toNat, upper]
  simp [UInt32.le_iff_toNat_le]

theorem isAlphanum_iff_toNat {c : Char} :
    c.isAlphanum = true ↔
      (65 ≤ c.toNat ∧ c.toNat ≤ 90 ∨ 97 ≤ c.toNat ∧ c.toNat ≤ 122) ∨
        48 ≤ c.toNat ∧ c.toNat ≤ 57 := by
  have alphanum : c.isAlphanum = (c.isAlpha || c.isDigit) := rfl
  rw [alphanum, Bool.or_eq_true, isAlpha_iff_toNat, Char.isDigit_iff_toNat]
  rfl

theorem not_isAlphanum_of_isBlank {c : Char} (blank : isBlank c = true) :
    c.isAlphanum = false := by
  simp only [isBlank, Bool.or_eq_true, Bool.and_eq_true, beq_iff_eq,
    decide_eq_true_eq] at blank
  rw [← Bool.not_eq_true, isAlphanum_iff_toNat]
  omega

theorem ne_of_isBlank {c : Char} (blank : isBlank c = true) (other : Char)
    (notBlank : isBlank other = false) : c ≠ other := by
  rintro rfl
  simp [blank] at notBlank

/-- Trimming takes a run of blanks off both ends. -/
theorem exists_eq_append_trim (text : List Char) :
    ∃ lead trail, text = lead ++ (trim text ++ trail) ∧
      (∀ c ∈ lead, isBlank c = true) ∧ (∀ c ∈ trail, isBlank c = true) := by
  refine ⟨text.takeWhile isBlank,
    ((trimStart text).reverse.takeWhile isBlank).reverse, ?_, ?_, ?_⟩
  · rw [trim, trimEnd, ← List.reverse_append, List.takeWhile_append_dropWhile,
      List.reverse_reverse, trimStart, List.takeWhile_append_dropWhile]
  · exact List.all_eq_true.mp List.all_takeWhile
  · intro c member
    exact List.all_eq_true.mp List.all_takeWhile c (List.mem_reverse.mp member)

theorem trim_isInfix (text : List Char) : trim text <:+: text := by
  obtain ⟨lead, trail, parts, _⟩ := exists_eq_append_trim text
  exact ⟨lead, trail, by rw [List.append_assoc, ← parts]⟩

theorem linesFrom_append
    {text : List Char} (noFeed : '\n' ∉ text) (reversed rest : List Char) :
    linesFrom reversed (text ++ '\n' :: rest) =
      dropReturn (text.reverse ++ reversed) :: linesFrom [] rest := by
  induction text generalizing reversed with
  | nil => rfl
  | cons c text induction =>
      obtain ⟨different, noFeed⟩ : '\n' ≠ c ∧ '\n' ∉ text := by
        simpa using noFeed
      rw [List.cons_append, linesFrom]
      · rw [induction noFeed, List.reverse_cons, List.append_assoc,
          List.singleton_append]
      · exact different.symm

/-- A line that holds no line feed and does not end in a carriage return is
found again. -/
theorem lines_append {text : List Char} (noFeed : '\n' ∉ text)
    (noReturn : text.getLast? ≠ some '\r') (rest : List Char) :
    lines (text ++ '\n' :: rest) = text :: lines rest := by
  have kept : dropReturn text.reverse = text := by
    unfold dropReturn
    split
    · rename_i before shape
      rw [List.getLast?_eq_head?_reverse, shape] at noReturn
      exact absurd rfl noReturn
    · exact List.reverse_reverse text
  rw [lines, linesFrom_append noFeed, List.append_nil, kept, lines]

theorem linesFrom_of_noFeed
    {text : List Char} (noFeed : '\n' ∉ text) (reversed : List Char)
    (notEmpty : text.reverse ++ reversed ≠ []) :
    linesFrom reversed text = [reversed.reverse ++ text] := by
  induction text generalizing reversed with
  | nil =>
      have occupied : reversed.isEmpty = false :=
        List.isEmpty_eq_false_iff.mpr notEmpty
      rw [linesFrom, occupied, List.append_nil]
      rfl
  | cons c text induction =>
      obtain ⟨different, noFeed⟩ : '\n' ≠ c ∧ '\n' ∉ text := by
        simpa using noFeed
      rw [linesFrom]
      · rw [induction noFeed (c :: reversed) (by simp), List.reverse_cons,
          List.append_assoc, List.singleton_append]
      · exact different.symm

/-- A text without line feeds is one line, unless it is empty. -/
theorem lines_of_noFeed
    {text : List Char} (noFeed : '\n' ∉ text) (notEmpty : text ≠ []) :
    lines text = [text] :=
  linesFrom_of_noFeed noFeed [] (by simpa using notEmpty)

end Workflow.Text
