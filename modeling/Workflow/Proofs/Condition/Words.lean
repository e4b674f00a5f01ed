import Workflow.Condition.Lexical
import Workflow.Proofs.Sequencing
import Workflow.Proofs.Text.Pieces

/-!
# Words of a condition

The machine that reads conditions takes in a word character by character and
judges it when it ends.  The equations below skip from the start of a word to
its end, so that proofs about conditions go from word to word.
-/

namespace Workflow.Condition

namespace Scan

variable (allowed : List String)

/-- What the machine says when it reads a text from a given state to the
end. -/
def outcome (scan : Scan) (text : List Char) : Except Problem Unit := do
  let last ← text.foldlM (step allowed) scan
  last.finish allowed

theorem checkTokens_eq_outcome (text : List Char) :
    checkTokens allowed text = start.outcome allowed text := rfl

theorem outcome_nil (scan : Scan) :
    scan.outcome allowed [] = scan.finish allowed := rfl

theorem outcome_cons (scan : Scan) (c : Char) (rest : List Char) :
    scan.outcome allowed (c :: rest) =
      scan.step allowed c >>= (·.outcome allowed rest) := by
  simp only [outcome, List.foldlM_cons, bind_assoc]

variable {allowed}

theorem outcome_cons_of_step {scan next : Scan} {c : Char} {rest : List Char}
    (step : scan.step allowed c = .ok next) :
    scan.outcome allowed (c :: rest) = next.outcome allowed rest := by
  rw [outcome_cons, step]
  rfl

theorem outcome_cons_eq_ok {scan : Scan} {c : Char} {rest : List Char}
    (accepted : scan.outcome allowed (c :: rest) = .ok ()) :
    ∃ next,
      scan.step allowed c = .ok next ∧ next.outcome allowed rest = .ok () := by
  rw [outcome_cons] at accepted
  exact bind_eq_ok_iff.mp accepted

/-- What is said about a word behind which the machine stands. -/
def judge (allowed : List String) (word : List Char) : Except Problem Unit :=
  match word with
  | [] => .ok ()
  | first :: _ =>
      if first.isDigit then .ok () else checkName allowed false word

/-- What is said about words, of which the first that is refused counts. -/
def judgeAll (allowed : List String) : List (List Char) → Except Problem Unit
  | [] => .ok ()
  | word :: rest => do
      judge allowed word
      judgeAll allowed rest

theorem judgeAll_append (words more : List (List Char)) :
    judgeAll allowed (words ++ more) = (do
      judgeAll allowed words
      judgeAll allowed more) := by
  induction words with
  | nil => rfl
  | cons word words induction => simp [judgeAll, induction]

variable {brackets : List Char}

theorem readCode_of_isDigit
    {afterDot : Bool} {c : Char} (digit : c.isDigit = true) :
    readCode afterDot brackets c = .ok ⟨.number, brackets⟩ := by
  have range : 48 ≤ c.toNat ∧ c.toNat ≤ 57 := by
    simpa [Char.isDigit, UInt32.le_iff_toNat_le] using digit
  have noAlpha : c.isAlpha = false := by
    rw [← Bool.not_eq_true, Text.isAlpha_iff_toNat]
    omega
  have noQuote : c ≠ '\'' ∧ c ≠ '"' ∧ c ≠ '_' := by
    refine ⟨?_, ?_, ?_⟩ <;> rintro rfl <;> revert digit <;> decide
  simp [readCode, digit, noAlpha, noQuote]

theorem readCode_of_isNameStart
    {afterDot : Bool} {c : Char} (part : isWordPart c = true)
    (noDigit : ¬c.isDigit = true) :
    readCode afterDot brackets c = .ok ⟨.name afterDot [c], brackets⟩ := by
  have noQuote : c ≠ '\'' ∧ c ≠ '"' := by
    constructor <;> rintro rfl <;> revert part <;> decide
  have start : (c.isAlpha || c == '_') = true := by
    simp only [isWordPart, Char.isAlphanum] at part
    grind
  simp [readCode, start, noQuote]

/-- A name is judged where it ends, and then the machine goes on as in front of
anything else. -/
theorem outcome_name (afterDot : Bool) (reversed text : List Char) :
    outcome allowed ⟨.name afterDot reversed, brackets⟩ text = (do
      checkName allowed afterDot
        (reversed.reverse ++ text.takeWhile isWordPart)
      outcome allowed ⟨.code false, brackets⟩
        (text.dropWhile isWordPart)) := by
  induction text generalizing reversed with
  | nil => simp [outcome_nil, finish]
  | cons c rest induction =>
      by_cases part : isWordPart c = true
      · have step : step allowed ⟨.name afterDot reversed, brackets⟩ c =
            .ok ⟨.name afterDot (c :: reversed), brackets⟩ := by
          simp [Scan.step, part]
        rw [outcome_cons_of_step step, induction]
        simp [part]
      · rw [outcome_cons]
        simp [Scan.step, part, outcome_cons, bind_assoc]

theorem outcome_number (text : List Char) :
    outcome allowed ⟨.number, brackets⟩ text =
      outcome allowed ⟨.code false, brackets⟩ (text.dropWhile isWordPart) := by
  induction text with
  | nil => rfl
  | cons c rest induction =>
      by_cases part : isWordPart c = true
      · have step :
            step allowed ⟨.number, brackets⟩ c = .ok ⟨.number, brackets⟩ := by
          simp [Scan.step, part]
        rw [outcome_cons_of_step step, induction]
        simp [part]
      · simp [outcome_cons, Scan.step, part]

/-- A word is judged, and then the machine goes on behind it. -/
theorem outcome_code (text : List Char) :
    outcome allowed ⟨.code false, brackets⟩ text = (do
      judge allowed (text.takeWhile isWordPart)
      outcome allowed ⟨.code false, brackets⟩
        (text.dropWhile isWordPart)) := by
  cases text with
  | nil => rfl
  | cons c rest =>
      by_cases part : isWordPart c = true
      · by_cases digit : c.isDigit = true
        · have step : step allowed ⟨.code false, brackets⟩ c =
              .ok ⟨.number, brackets⟩ :=
            readCode_of_isDigit digit
          rw [outcome_cons_of_step step, outcome_number]
          simp [part, judge, digit]
        · have step : step allowed ⟨.code false, brackets⟩ c =
              .ok ⟨.name false [c], brackets⟩ :=
            readCode_of_isNameStart part digit
          rw [outcome_cons_of_step step, outcome_name]
          simp [part, judge, digit]
      · simp [part, judge]

/-- What reading a character outside of words and literals can do. -/
inductive CodeStep (brackets : List Char) (c : Char) : Scan → Prop where
  | quote (quote : c = '\'' ∨ c = '"') :
      CodeStep brackets c ⟨.quoted c, brackets⟩
  | name (afterDot : Bool) (start : (c.isAlpha || c == '_') = true) :
      CodeStep brackets c ⟨.name afterDot [c], brackets⟩
  | number (digit : c.isDigit = true) : CodeStep brackets c ⟨.number, brackets⟩
  | opens (opening : c = '(' ∨ c = '[') :
      CodeStep brackets c ⟨.code false, c :: brackets⟩
  | closes (outer : List Char) (closing : c = ')' ∨ c = ']')
      (inside : brackets = opening c :: outer) : CodeStep brackets c
        ⟨.code false, outer⟩
  | other (afterDot : Bool)
      (plain : ¬(c = '\'' ∨ c = '"') ∧ ¬(c = '(' ∨ c = '[') ∧
      ¬(c = ')' ∨ c = ']') ∧ c ≠ '#') : CodeStep brackets c
        ⟨.code afterDot, brackets⟩

theorem codeStep_of_readCode
    {afterDot : Bool} {c : Char} {next : Scan}
    (read : readCode afterDot brackets c = .ok next) :
    CodeStep brackets c next := by
  revert read
  fun_cases readCode afterDot brackets c with
  | case1 _ quote =>
      rintro ⟨⟩
      exact .quote (by simpa using quote)
  | case2 _ _ start =>
      rintro ⟨⟩
      exact .name afterDot start
  | case3 _ _ _ digit =>
      rintro ⟨⟩
      exact .number digit
  | case4 =>
      rintro ⟨⟩
      exact .other true (by simp_all)
  | case5 _ _ _ _ _ opening =>
      rintro ⟨⟩
      exact .opens (by simpa using opening)
  | case6 _ _ _ _ _ closing _ _ same =>
      rintro ⟨⟩
      exact .closes _ (by simpa using closing) (by rw [beq_iff_eq.mp same])
  | case7 => nofun
  | case8 => nofun
  | case9 => nofun
  | case10 =>
      rintro ⟨⟩
      exact .other afterDot (by simp_all)
  | case11 =>
      rintro ⟨⟩
      exact .other false (by simp_all)

/-- Literals are opened by one of the two quotes. -/
def Regular (scan : Scan) : Prop :=
  match scan.mode with
  | .quoted quote | .escaped quote => quote = '\'' ∨ quote = '"'
  | _ => True

theorem regular_readCode {afterDot : Bool} {c : Char} {next : Scan}
    (read : readCode afterDot brackets c = .ok next) : next.Regular := by
  cases codeStep_of_readCode read with
  | quote quote => exact quote
  | name => trivial
  | number => trivial
  | opens => trivial
  | closes => trivial
  | other => trivial

theorem regular_step {scan next : Scan} {c : Char} (regular : scan.Regular)
    (step : scan.step allowed c = .ok next) : next.Regular := by
  obtain ⟨mode, brackets⟩ := scan
  cases mode with
  | code afterDot => exact regular_readCode step
  | name afterDot reversed =>
      simp only [Scan.step] at step
      split at step
      · cases step
        trivial
      · obtain ⟨_, _, read⟩ := bind_eq_ok_iff.mp step
        exact regular_readCode read
  | number =>
      simp only [Scan.step] at step
      split at step
      · cases step
        trivial
      · exact regular_readCode step
  | quoted quote =>
      simp only [Scan.step] at step
      split at step
      · cases step
        exact regular
      · split at step
        · cases step
          trivial
        · cases step
          exact regular
  | escaped quote =>
      cases step
      exact regular

theorem finish_eq_ok {scan : Scan} (finished : scan.finish allowed = .ok ()) :
    scan.brackets = [] ∧
    ∀ quote, scan.mode ≠ .quoted quote ∧ scan.mode ≠ .escaped quote := by
  obtain ⟨mode, brackets⟩ := scan
  constructor
  · cases brackets with
    | nil => rfl
    | cons innermost outer =>
        cases mode with
        | name afterDot reversed =>
            obtain ⟨_, _, closed⟩ := bind_eq_ok_iff.mp finished
            cases closed
        | code afterDot => cases finished
        | number => cases finished
        | quoted quote => cases finished
        | escaped quote => cases finished
  · intro quote
    constructor
    · rintro rfl
      cases finished
    · rintro rfl
      cases finished

theorem readCode_of_isBlank
    {afterDot : Bool} {c : Char} {next : Scan} (blank : Text.isBlank c = true)
    (read : readCode afterDot brackets c = .ok next) :
    ∃ stillAfterDot, next = ⟨.code stillAfterDot, brackets⟩ ∧
      (stillAfterDot = true → afterDot = true) := by
  have different := Text.ne_of_isBlank blank
  have noWord := Text.not_isAlphanum_of_isBlank blank
  simp only [Char.isAlphanum, Bool.or_eq_false_iff] at noWord
  simp only [readCode, noWord, different '\'' rfl, different '"' rfl,
    different '_' rfl, different '.' rfl, different '(' rfl, different '[' rfl,
    different ')' rfl, different ']' rfl, different '#' rfl,
    different '\\' rfl, beq_iff_eq, Bool.or_eq_true, decide_eq_true_eq,
    Bool.false_eq_true, false_or, or_false, if_false] at read
  split at read
  · cases read
  · split at read
    · exact ⟨afterDot, (Except.ok.inj read).symm, id⟩
    · exact ⟨false, (Except.ok.inj read).symm, by simp⟩

theorem outcome_of_lead
    {lead text : List Char} (blank : ∀ c ∈ lead, Text.isBlank c = true)
    (accepted : outcome allowed ⟨.code false, brackets⟩ (lead ++ text) =
      .ok ()) :
    outcome allowed ⟨.code false, brackets⟩ text = .ok () := by
  induction lead with
  | nil => exact accepted
  | cons c lead induction =>
      obtain ⟨next, step, rest⟩ := outcome_cons_eq_ok accepted
      obtain ⟨afterDot, rfl, noDot⟩ :=
        readCode_of_isBlank (blank c List.mem_cons_self) step
      obtain rfl : afterDot = false := by simpa using noDot
      exact induction (fun d member => blank d (List.mem_cons_of_mem c member))
        rest

theorem finish_of_step_blank
    {scan next : Scan} {c : Char} (regular : scan.Regular)
    (blank : Text.isBlank c = true) (step : scan.step allowed c = .ok next)
    (accepted : next.finish allowed = .ok ()) :
    scan.finish allowed = .ok () := by
  obtain ⟨mode, brackets⟩ := scan
  have different := Text.ne_of_isBlank blank
  have noPart : isWordPart c = false := by
    simp [isWordPart, Text.not_isAlphanum_of_isBlank blank, different '_' rfl]
  cases mode with
  | code afterDot =>
      obtain ⟨_, rfl, _⟩ := readCode_of_isBlank blank step
      exact accepted
  | name afterDot reversed =>
      simp only [Scan.step, noPart, Bool.false_eq_true, if_false] at step
      obtain ⟨_, judged, read⟩ := bind_eq_ok_iff.mp step
      obtain ⟨_, rfl, _⟩ := readCode_of_isBlank blank read
      simp only [finish, judged, ok_bind]
      exact accepted
  | number =>
      simp only [Scan.step, noPart, Bool.false_eq_true, if_false] at step
      obtain ⟨_, rfl, _⟩ := readCode_of_isBlank blank step
      exact accepted
  | quoted quote =>
      have noQuote : c ≠ quote := by
        rcases regular with rfl | rfl
        · exact different '\'' rfl
        · exact different '"' rfl
      simp only [Scan.step, different '\\' rfl, noQuote, beq_iff_eq,
        if_false] at step
      cases step
      exact accepted
  | escaped quote =>
      cases step
      exact accepted

theorem outcome_of_trail
    {scan : Scan} {text trail : List Char} (regular : scan.Regular)
    (blank : ∀ c ∈ trail, Text.isBlank c = true)
    (accepted : scan.outcome allowed (text ++ trail) = .ok ()) :
    scan.outcome allowed text = .ok () := by
  induction text generalizing scan with
  | nil =>
      induction trail generalizing scan with
      | nil => exact accepted
      | cons c trail induction =>
          obtain ⟨next, step, rest⟩ := outcome_cons_eq_ok accepted
          have behind :=
            induction (fun d member => blank d (List.mem_cons_of_mem c member))
              (regular_step regular step) rest
          exact finish_of_step_blank regular (blank c List.mem_cons_self) step
            behind
  | cons c text induction =>
      obtain ⟨next, step, rest⟩ := outcome_cons_eq_ok accepted
      rw [outcome_cons_of_step step]
      exact induction (regular_step regular step) rest

end Scan

end Workflow.Condition
