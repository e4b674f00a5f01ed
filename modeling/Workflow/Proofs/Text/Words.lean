import Workflow.Proofs.Text.Pieces

/-!
# Words of a text

The words of a text are its maximal runs of word characters: a run is among
them exactly when it stands in the text with no word character next to it.  A
character that belongs to no word cuts the words of a text into those before
and those behind it.
-/

namespace Workflow.Text

/-- No word character stands at the end of a text. -/
def EndsApart (before : List Char) : Prop :=
  ∀ c ∈ before.getLast?, isWordChar c = false

/-- No word character stands at the start of a text. -/
def StartsApart (after : List Char) : Prop :=
  ∀ c ∈ after.head?, isWordChar c = false

/-- The code points of blanks. -/
def blankCodes : List Nat :=
  [0x9, 0xA, 0xB, 0xC, 0xD, 0x20, 0x85, 0xA0, 0x1680, 0x2000, 0x2001, 0x2002,
    0x2003, 0x2004, 0x2005, 0x2006, 0x2007, 0x2008, 0x2009, 0x200A, 0x2028,
    0x2029, 0x202F, 0x205F, 0x3000]

theorem mem_blankCodes_of_isBlank {c : Char} (blank : isBlank c = true) :
    c.toNat ∈ blankCodes := by
  simp only [isBlank, Bool.or_eq_true, Bool.and_eq_true, beq_iff_eq,
    decide_eq_true_eq] at blank
  simp only [blankCodes, List.mem_cons, List.not_mem_nil, or_false]
  omega

/-- Blanks belong to no word, in no script. -/
theorem not_isWordChar_of_isBlank {c : Char} (blank : isBlank c = true) :
    isWordChar c = false := by
  have outside : (blankCodes.all fun code =>
      wordRanges.all fun range => !(range.1 ≤ code && code ≤ range.2)) =
        true := by
    decide +kernel
  have noRange :=
    List.all_eq_true.mp outside _ (mem_blankCodes_of_isBlank blank)
  have noUnderscore : c ≠ '_' := ne_of_isBlank blank '_' rfl
  have notInRanges :
      (wordRanges.any fun range => range.1 ≤ c.toNat && c.toNat ≤ range.2) =
        false := by
    rw [List.any_eq_false]
    intro range member
    have here := List.all_eq_true.mp noRange range member
    rw [Bool.not_eq_true'] at here
    rw [here]
    exact Bool.false_ne_true
  simp [isWordChar, not_isAlphanum_of_isBlank blank, noUnderscore, notInRanges]

/-- The same word in a text that goes on. -/
def Word.before (more : List Char) (word : Word) : Word :=
  ⟨word.letters, word.rest ++ more⟩

theorem wordsFrom_letters_append
    {letters : List Char} (wordChars : ∀ c ∈ letters, isWordChar c = true)
    (reversed rest : List Char) :
    wordsFrom reversed (letters ++ rest) =
      wordsFrom (letters.reverse ++ reversed) rest := by
  induction letters generalizing reversed with
  | nil => rfl
  | cons c letters induction =>
      obtain ⟨here, later⟩ := List.forall_mem_cons.mp wordChars
      rw [List.cons_append, wordsFrom, if_pos here, induction later]
      simp

theorem wordsFrom_of_startsApart
    {after : List Char} (apart : StartsApart after) (reversed : List Char) :
    wordsFrom reversed after =
      closeWord reversed after ++ wordsFrom [] after := by
  cases after with
  | nil => simp [wordsFrom, closeWord]
  | cons c rest =>
      have noWord : isWordChar c = false := apart c rfl
      simp [wordsFrom, noWord, closeWord]

theorem closeWord_map_before (reversed more : List Char) :
    (closeWord reversed []).map (Word.before more) =
      closeWord reversed more := by
  unfold closeWord
  split
  · rfl
  · simp [Word.before]

/-- A character of no word cuts the words of a text. -/
theorem wordsFrom_append_cons {d : Char} (noWord : isWordChar d = false)
    (reversed left right : List Char) :
    wordsFrom reversed (left ++ d :: right) =
      (wordsFrom reversed left).map (Word.before (d :: right)) ++
        words right := by
  induction left generalizing reversed with
  | nil => simp [wordsFrom, noWord, closeWord_map_before, words]
  | cons c left induction =>
      rw [List.cons_append, wordsFrom, wordsFrom]
      split
      · exact induction (c :: reversed)
      · have closed : closeWord reversed (c :: (left ++ d :: right)) =
            (closeWord reversed (c :: left)).map
              (Word.before (d :: right)) := by
          unfold closeWord
          split
          · rfl
          · simp [Word.before]
        rw [induction, closed, List.map_append, List.append_assoc]

theorem words_append_cons
    {d : Char} (noWord : isWordChar d = false) (left right : List Char) :
    words (left ++ d :: right) =
      (words left).map (Word.before (d :: right)) ++ words right :=
  wordsFrom_append_cons noWord [] left right

/-- A run of word characters stands in a text with no word character next to
it. -/
structure Stands (text before letters after : List Char) : Prop where
  shape : text = before ++ (letters ++ after)
  notEmpty : letters ≠ []
  wordChars : ∀ c ∈ letters, isWordChar c = true
  endsApart : EndsApart before
  startsApart : StartsApart after

theorem Stands.mem_words
    {text before letters after : List Char}
    (stands : Stands text before letters after) :
    ⟨letters, after⟩ ∈ words text := by
  have atStart : ⟨letters, after⟩ ∈ words (letters ++ after) := by
    have occupied : letters.reverse.isEmpty = false := by
      simpa using stands.notEmpty
    rw [words, wordsFrom_letters_append stands.wordChars, List.append_nil,
      wordsFrom_of_startsApart stands.startsApart, closeWord, occupied]
    simp
  rw [stands.shape]
  rcases List.eq_nil_or_concat before with rfl | ⟨front, d, rfl⟩
  · exact atStart
  · have noWord : isWordChar d = false := stands.endsApart d (by simp)
    rw [List.concat_eq_append, List.append_assoc, List.singleton_append,
      words_append_cons noWord]
    exact List.mem_append_right _ atStart

theorem stands_of_mem_closeWord
    {reversed rest letters after : List Char}
    (wordChars : ∀ c ∈ reversed, isWordChar c = true)
    (apart : StartsApart rest)
    (member : ⟨letters, after⟩ ∈ closeWord reversed rest) :
    Stands (reversed.reverse ++ rest) [] letters after := by
  unfold closeWord at member
  split at member
  · cases member
  · rename_i occupied
    obtain ⟨rfl, rfl⟩ := Word.mk.inj (List.mem_singleton.mp member)
    exact {
      shape := rfl
      notEmpty := by simpa using occupied
      wordChars := by simpa using wordChars
      endsApart := by simp [EndsApart]
      startsApart := apart }

theorem exists_stands_of_mem_wordsFrom
    {reversed text letters after : List Char}
    (wordChars : ∀ c ∈ reversed, isWordChar c = true)
    (member : ⟨letters, after⟩ ∈ wordsFrom reversed text) :
    ∃ before, Stands (reversed.reverse ++ text) before letters after := by
  induction text generalizing reversed with
  | nil =>
      exact ⟨[],
        stands_of_mem_closeWord wordChars (by simp [StartsApart]) member⟩
  | cons c rest induction =>
      rw [wordsFrom] at member
      split at member
      · rename_i isWord
        obtain ⟨before, stands⟩ :=
          induction (List.forall_mem_cons.mpr ⟨isWord, wordChars⟩) member
        exact ⟨before, by simpa using stands⟩
      · rename_i noWord
        rcases List.mem_append.mp member with inClosed | later
        · have apart : StartsApart (c :: rest) := by
            simpa [StartsApart] using noWord
          exact ⟨[], stands_of_mem_closeWord wordChars apart inClosed⟩
        · obtain ⟨before, stands⟩ := induction (List.forall_mem_nil _) later
          refine ⟨reversed.reverse ++ c :: before,
            { stands with shape := ?_, endsApart := ?_ }⟩
          · simpa using stands.shape
          · intro d last
            rw [List.getLast?_append, List.getLast?_cons] at last
            cases end? : before.getLast? with
            | none =>
                obtain rfl : c = d := by simpa [end?] using last
                simpa using noWord
            | some e =>
                obtain rfl : e = d := by simpa [end?] using last
                exact stands.endsApart e end?

/-- The words of a text are the runs that stand in it with no word character
next to them. -/
theorem mem_words_iff {text letters after : List Char} :
    ⟨letters, after⟩ ∈ words text ↔
      ∃ before, Stands text before letters after := by
  constructor
  · exact exists_stands_of_mem_wordsFrom (List.forall_mem_nil _)
  · rintro ⟨before, stands⟩
    exact stands.mem_words

end Workflow.Text
