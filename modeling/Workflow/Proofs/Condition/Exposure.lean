import Workflow.Condition.Check
import Workflow.Proofs.Condition.LookupReading

/-!
# Words that references expose

A condition is checked with a zero in place of every reference, but written
with lookups in their place.  The two texts part where a word is glued to a
reference from behind, and where a reference stands between double quotes:
there words come to stand outside of literals that were never checked.  These
are the exposed words, and nothing else can be wrong with the expression of an
accepted condition.
-/

namespace Workflow.Condition

open Program Scan

/-- Names that may stand in the expression of a condition: those of conditions,
and the context. -/
def expressionNames : List String :=
  "ctx" :: allowedNames

def masked (atoms : List Atom) : List Char :=
  atoms.flatMap fun atom =>
    match atom with
    | .char c => [c]
    | .reference _ => ['0']

/-- A list of atoms with lookups in place of references. -/
def emitted (atoms : List Atom) : List Char :=
  atoms.flatMap fun atom =>
    match atom with
    | .char c => [c]
    | .reference target => (lookup target).toList

/-- The words that a lookup exposes where the machine stands in a mode and
`behind` follows. -/
def exposedAt (mode : Mode) (target : Reference) (behind : List Char) :
    List (List Char) :=
  match mode with
  | .quoted quote | .escaped quote =>
      if quote = '"' then target.root.toList :: textFields target.path else []
  | _ => [behind.takeWhile isWordPart]

/-- The words that the references among atoms expose, read from a state on. -/
def exposedFrom (scan : Scan) : List Atom → List (List Char)
  | [] => []
  | .char c :: rest =>
      match scan.step allowedNames c with
      | .ok next => exposedFrom next rest
      | .error _ => []
  | .reference target :: rest =>
      exposedAt scan.mode target (emitted rest) ++
        match scan.step allowedNames '0' with
        | .ok next => exposedFrom next rest
        | .error _ => []

/-- The words that the references of a condition expose. -/
def exposed (condition : String) : List (List Char) :=
  exposedFrom start (Template.atoms (Text.trim condition.toList))

/-- Words that do no harm outside of literals: numbers, and the names that may
stand there. -/
def isHarmless : List Char → Bool
  | [] => true
  | first :: rest =>
      first.isDigit || expressionNames.contains (String.ofList (first :: rest))

namespace Scan

variable {scan next : Scan} {c : Char}

theorem checkName_mono {afterDot : Bool} {name : List Char}
    (checked : checkName allowedNames afterDot name = .ok ()) :
    checkName expressionNames afterDot name = .ok () := by
  cases afterDot with
  | true => exact checked
  | false =>
      simp only [checkName, Bool.false_eq_true, if_false] at checked ⊢
      split at checked
      · rename_i allowed
        have inBoth :
            expressionNames.contains (String.ofList name) = true := by
          simp only [expressionNames, List.contains_cons, allowed,
            Bool.or_true]
        simp only [inBoth, if_true]
      · cases checked

theorem step_mono (step : scan.step allowedNames c = .ok next) :
    scan.step expressionNames c = .ok next := by
  obtain ⟨mode, brackets⟩ := scan
  cases mode with
  | name afterDot reversed =>
      simp only [Scan.step] at step ⊢
      split at step
      · rename_i part
        simpa only [part, if_true] using step
      · rename_i part
        obtain ⟨_, checked, read⟩ := bind_eq_ok_iff.mp step
        simp only [part, checkName_mono checked, ok_bind]
        exact read
  | code afterDot => exact step
  | number => exact step
  | quoted quote => exact step
  | escaped quote => exact step

theorem finish_mono (finished : scan.finish allowedNames = .ok ()) :
    scan.finish expressionNames = .ok () := by
  obtain ⟨mode, brackets⟩ := scan
  cases mode with
  | name afterDot reversed =>
      obtain ⟨_, checked, closed⟩ := bind_eq_ok_iff.mp finished
      simp only [finish, checkName_mono checked, ok_bind]
      exact closed
  | code afterDot => exact finished
  | number => exact finished
  | quoted quote => exact finished
  | escaped quote => exact finished

/-- The machine stands in a number or an attribute, so that the word may go on
in any way. -/
def Loose (scan : Scan) : Prop :=
  scan.mode = .number ∨ ∃ reversed, scan.mode = .name true reversed

theorem loose_of_step_wordPart
    (loose : scan.Loose) (part : isWordPart c = true)
    (step : scan.step allowedNames c = .ok next) :
    next.Loose ∧ next.brackets = scan.brackets := by
  obtain ⟨mode, brackets⟩ := scan
  rcases loose with rfl | ⟨reversed, rfl⟩
  · simp only [Scan.step, part, if_true] at step
    cases step
    exact ⟨.inl rfl, rfl⟩
  · simp only [Scan.step, part, if_true] at step
    cases step
    exact ⟨.inr ⟨_, rfl⟩, rfl⟩

theorem step_code_of_step_loose
    (loose : scan.Loose) (noPart : isWordPart c = false)
    (step : scan.step allowedNames c = .ok next) :
    Scan.step expressionNames ⟨.code false, scan.brackets⟩ c = .ok next := by
  obtain ⟨mode, brackets⟩ := scan
  rcases loose with rfl | ⟨reversed, rfl⟩
  · simp only [Scan.step, noPart, Bool.false_eq_true, if_false] at step
    exact step
  · simp only [Scan.step, noPart, Bool.false_eq_true, if_false] at step
    obtain ⟨_, _, read⟩ := bind_eq_ok_iff.mp step
    exact read

/-- A name that was begun holds no zero when it is accepted, unless it is an
attribute. -/
theorem not_accepted_of_zero {reversed brackets rest : List Char} :
    outcome allowedNames ⟨.name false ('0' :: reversed), brackets⟩ rest ≠
      .ok () := by
  intro accepted
  rw [outcome_name] at accepted
  obtain ⟨_, checked, _⟩ := bind_eq_ok_iff.mp accepted
  simp only [checkName, Bool.false_eq_true, if_false] at checked
  split at checked
  · rename_i allowed
    have noZero : ∀ name ∈ allowedNames, '0' ∉ name.toList := by decide
    apply noZero _ (List.contains_iff_mem.mp allowed)
    simp
  · cases checked

/-- An attribute is private or not by its first character, whatever it goes on
with. -/
theorem checkName_attribute
    {reversed brackets rest : List Char}
    (accepted : outcome allowedNames ⟨.name true ('0' :: reversed), brackets⟩
      rest = .ok ()) (word : List Char) (notPrivate : word.head? ≠ some '_') :
    checkName expressionNames true (reversed.reverse ++ word) = .ok () := by
  rw [outcome_name] at accepted
  obtain ⟨_, checked, _⟩ := bind_eq_ok_iff.mp accepted
  simp only [checkName, if_true] at checked ⊢
  cases first : reversed.reverse with
  | nil => simp [notPrivate]
  | cons head tail => simpa [first] using checked

end Scan

theorem judge_eq (word : List Char) :
    judge expressionNames word =
      if isHarmless word then .ok ()
      else .error (.unknownName (String.ofList word)) := by
  cases word with
  | nil => rfl
  | cons first rest =>
      by_cases digit : first.isDigit = true
      · simp [judge, isHarmless, digit]
      · simp [judge, isHarmless, digit, checkName]

theorem judgeAll_eq (words : List (List Char)) :
    judgeAll expressionNames words =
      match words.find? (!isHarmless ·) with
      | none => .ok ()
      | some word => .error (.unknownName (String.ofList word)) := by
  induction words with
  | nil => rfl
  | cons word words induction =>
      by_cases harmless : isHarmless word = true
      · simp [judgeAll, judge_eq, harmless, induction]
      · simp [judgeAll, judge_eq, harmless]

theorem exposedFrom_reference
    {scan next : Scan} {target : Reference} {rest : List Atom}
    (step : scan.step allowedNames '0' = .ok next) :
    exposedFrom scan (.reference target :: rest) =
      exposedAt scan.mode target (emitted rest) ++ exposedFrom next rest := by
  simp [exposedFrom, step]

/-- Behind a lookup the word that is glued to it is judged. -/
theorem outcome_behind_lookup
    {next : Scan} {rest : List Atom}
    (behind : outcome expressionNames ⟨.code false, next.brackets⟩
      ((emitted rest).dropWhile isWordPart) =
      judgeAll expressionNames (exposedFrom next rest)) :
    outcome expressionNames ⟨.code false, next.brackets⟩ (emitted rest) =
      judgeAll expressionNames
        ((emitted rest).takeWhile isWordPart :: exposedFrom next rest) := by
  rw [outcome_code, behind, judgeAll]

/-- Between quotes a lookup exposes its own words, and then the literal goes
on. -/
theorem outcome_lookup_of_quoted
    {quote : Char} {brackets : List Char} {target : Reference}
    (wellFormed : target.WellFormed) (isQuote : quote = '\'' ∨ quote = '"')
    (more : List Char) :
    outcome expressionNames ⟨.quoted quote, brackets⟩
      ((lookup target).toList ++ more) = (do
      judgeAll expressionNames (exposedAt (.quoted quote) target more)
      outcome expressionNames ⟨.quoted quote, brackets⟩ more) := by
  rcases isQuote with rfl | rfl
  · exact outcome_lookup_of_singleQuoted wellFormed more
  · exact outcome_lookup_of_doubleQuoted wellFormed more

theorem outcome_lookup_of_escaped
    {quote : Char} {brackets : List Char} {target : Reference}
    (wellFormed : target.WellFormed) (isQuote : quote = '\'' ∨ quote = '"')
    (more : List Char) :
    outcome expressionNames ⟨.escaped quote, brackets⟩
      ((lookup target).toList ++ more) =
      outcome expressionNames ⟨.quoted quote, brackets⟩
        ((lookup target).toList ++ more) := by
  rw [lookup_toList wellFormed]
  rcases isQuote with rfl | rfl <;> rfl

theorem step_zero_of_quoted {quote : Char} {brackets : List Char}
    (isQuote : quote = '\'' ∨ quote = '"') :
    Scan.step allowedNames ⟨.quoted quote, brackets⟩ '0' =
      .ok ⟨.quoted quote, brackets⟩ := by
  rcases isQuote with rfl | rfl <;> rfl

/-- From here on the machine objects to exposed words only.  In a loose state
the word that it stands in counts as judged. -/
def Exposes (scan : Scan) (atoms : List Atom) : Prop :=
  scan.outcome expressionNames (emitted atoms) =
      judgeAll expressionNames (exposedFrom scan atoms) ∧
    (scan.Loose → outcome expressionNames ⟨.code false, scan.brackets⟩
        ((emitted atoms).dropWhile isWordPart) =
      judgeAll expressionNames (exposedFrom scan atoms))

theorem exposes_nil
    {scan : Scan} (accepted : scan.outcome allowedNames [] = .ok ()) :
    Exposes scan [] := by
  refine ⟨finish_mono accepted, ?_⟩
  intro _
  have closed := (finish_eq_ok accepted).1
  simp only [closed]
  rfl

theorem exposes_char {scan next : Scan} {c : Char} {rest : List Atom}
    (step : scan.step allowedNames c = .ok next) (behind : Exposes next rest) :
    Exposes scan (.char c :: rest) := by
  have unfolded :
      exposedFrom scan (.char c :: rest) = exposedFrom next rest := by
    simp [exposedFrom, step]
  unfold Exposes
  rw [unfolded]
  constructor
  · exact (outcome_cons_of_step (step_mono step)).trans behind.1
  · intro loose
    change outcome _ _ ((c :: emitted rest).dropWhile isWordPart) = _
    cases part : isWordPart c with
    | true =>
        obtain ⟨stillLoose, same⟩ := loose_of_step_wordPart loose part step
        rw [List.dropWhile_cons_of_pos part, ← same]
        exact behind.2 stillLoose
    | false =>
        rw [List.dropWhile_cons_of_neg (by simp [part]),
          outcome_cons_of_step (step_code_of_step_loose loose part step)]
        exact behind.1

/-- The machine reads a lookup as it reads a zero. -/
theorem exposes_reference
    {scan next : Scan} {target : Reference} {rest : List Atom}
    (wellFormed : target.WellFormed) (regular : scan.Regular)
    (step : scan.step allowedNames '0' = .ok next)
    (later : next.outcome allowedNames (masked rest) = .ok ())
    (induction : Exposes next rest) :
    Exposes scan (.reference target :: rest) := by
  have isLookup : emitted (.reference target :: rest) =
    (lookup target).toList ++ emitted rest := rfl
  have context : "ctx" ∈ expressionNames := List.mem_cons_self
  unfold Exposes
  rw [exposedFrom_reference step, isLookup]
  obtain ⟨mode, brackets⟩ := scan
  cases mode with
  | code afterDot =>
      obtain rfl : ⟨.number, brackets⟩ = next := Except.ok.inj step
      have behind := outcome_behind_lookup (induction.2 (.inl rfl))
      refine ⟨?_, nofun⟩
      rw [outcome_lookup_of_code wellFormed _ context]
      exact behind
  | name afterDot reversed =>
      obtain rfl : ⟨.name afterDot ('0' :: reversed), brackets⟩ = next :=
        Except.ok.inj step
      cases afterDot with
      -- no allowed name holds a zero, so only an attribute can have been begun
      | false => exact absurd later not_accepted_of_zero
      | true =>
          have behind := outcome_behind_lookup (induction.2 (.inr ⟨_, rfl⟩))
          have checked := checkName_attribute later ['c', 't', 'x'] nofun
          refine ⟨?_, fun _ => ?_⟩
          · rw [outcome_lookup_of_name wellFormed _ checked]
            exact behind
          · rw [(lookup_spans wellFormed _).2, outcome_lookup_tail wellFormed]
            exact behind
  | number =>
      obtain rfl : ⟨.number, brackets⟩ = next := Except.ok.inj step
      have behind := outcome_behind_lookup (induction.2 (.inl rfl))
      refine ⟨?_, fun _ => ?_⟩
      · rw [outcome_lookup_of_number wellFormed]
        exact behind
      · rw [(lookup_spans wellFormed _).2, outcome_lookup_tail wellFormed]
        exact behind
  | quoted quote =>
      obtain rfl : ⟨.quoted quote, brackets⟩ = next :=
        Except.ok.inj ((step_zero_of_quoted regular).symm.trans step)
      -- the quotes of the lookup close the literal and open it again, or are
      -- part of it
      refine ⟨?_, nofun⟩
      rw [outcome_lookup_of_quoted wellFormed regular, induction.1,
        judgeAll_append]
  | escaped quote =>
      obtain rfl : ⟨.quoted quote, brackets⟩ = next := Except.ok.inj step
      refine ⟨?_, nofun⟩
      rw [outcome_lookup_of_escaped wellFormed regular,
        outcome_lookup_of_quoted wellFormed regular, induction.1,
        judgeAll_append]
      rfl

theorem exposes_of_outcome
    {atoms : List Atom} {scan : Scan}
    (wellFormed : ∀ target, .reference target ∈ atoms → target.WellFormed)
    (regular : scan.Regular)
    (accepted : scan.outcome allowedNames (masked atoms) = .ok ()) :
    Exposes scan atoms := by
  induction atoms generalizing scan with
  | nil => exact exposes_nil accepted
  | cons atom rest induction =>
      have ofRest := fun target member =>
        wellFormed target (List.mem_cons_of_mem atom member)
      cases atom with
      | char c =>
          obtain ⟨next, step, later⟩ := outcome_cons_eq_ok accepted
          exact exposes_char step
            (induction ofRest (regular_step regular step) later)
      | reference target =>
          obtain ⟨next, step, later⟩ := outcome_cons_eq_ok accepted
          exact exposes_reference (wellFormed target List.mem_cons_self)
            regular step later
            (induction ofRest (regular_step regular step) later)

theorem check_eq_ok_iff {condition : String} :
    check condition = .ok () ↔
      Text.trim condition.toList ≠ [] ∧ denied? condition.toList = none ∧
        hasOperator condition.toList = true ∧
        strayReserved? condition.toList = none ∧
        checkTokens allowedNames (withoutReferences condition.toList) =
          .ok () := by
  cases blank : Text.trim condition.toList with
  | nil => simp [check, blank]
  | cons c core =>
      cases denied : denied? condition.toList with
      | some problem => simp [check, blank, denied]
      | none =>
          cases operator : hasOperator condition.toList with
          | false => simp [check, blank, denied, operator]
          | true =>
              cases stray : strayReserved? condition.toList with
              | some found => simp [check, blank, denied, operator, stray]
              | none => simp [check, blank, denied, operator, stray]

/-- The tokens of an accepted condition stay accepted without the blanks at its
ends. -/
theorem outcome_masked
    {condition : String} (accepted : check condition = .ok ()) :
    start.outcome allowedNames
      (masked (Template.atoms (Text.trim condition.toList))) = .ok () := by
  obtain ⟨lead, trail, parts, leadBlank, trailBlank⟩ :=
    Template.exists_substitute_eq (fun _ => ['0']) condition.toList
  have tokens := (check_eq_ok_iff.mp accepted).2.2.2.2
  rw [checkTokens_eq_outcome, withoutReferences, parts] at tokens
  exact outcome_of_trail trivial trailBlank (outcome_of_lead leadBlank tokens)

/-- The expression of an accepted condition consists of allowed tokens, names
that may stand in expressions and the context, unless one of the words that its
references expose is another name; then the first such word is refused. -/
theorem checkTokens_conditionExpression
    {condition : String} (accepted : check condition = .ok ()) :
    checkTokens expressionNames (conditionExpression condition).toList =
      match (exposed condition).find? (!isHarmless ·) with
      | none => .ok ()
      | some word => .error (.unknownName (String.ofList word)) := by
  have regular : start.Regular := trivial
  have read :=
    exposes_of_outcome (fun _ => Template.wellFormed_of_mem_atoms) regular
      (outcome_masked accepted)
  rw [← judgeAll_eq, conditionExpression, String.toList_ofList]
  exact read.1

/-- A reference between double quotes brings its root to stand outside of the
literal. -/
theorem checkTokens_conditionExpression_doubleQuoted :
    check "\"\x7b\x7ba\x7d\x7d\" == \"x\"" = .ok () ∧
      checkTokens expressionNames
        (conditionExpression "\"\x7b\x7ba\x7d\x7d\" == \"x\"").toList =
          .error (.unknownName "a") := by
  have accepted : check "\"\x7b\x7ba\x7d\x7d\" == \"x\"" = .ok () := by
    decide +kernel
  refine ⟨accepted, (checkTokens_conditionExpression accepted).trans ?_⟩
  decide +kernel

end Workflow.Condition
