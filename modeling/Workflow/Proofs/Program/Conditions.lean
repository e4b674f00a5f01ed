import Workflow.Proofs.Condition.Denial
import Workflow.Proofs.Condition.Exposure
import Workflow.Proofs.Program.Expressions

/-!
# Conditions are complete expressions

The machine of the self-check follows the machine that checks conditions: where
the one reads the characters of a condition with zeros for its references, the
other reads the same characters with lookups.  A lookup between double quotes
ends the literal and opens it again an even number of times.  The two machines
part only where an empty literal is followed by its own quote: there the
program opens a long literal, and the condition a short one.
-/

namespace Workflow.Program

open SelfCheck
open Condition (Scan masked emitted)

/-- The machine of conditions stands outside of literals. -/
def isOutside : Condition.Mode → Bool
  | .quoted _ | .escaped _ => false
  | _ => true

/-- Where the machine of the self-check may stand when that of conditions
stands somewhere. -/
inductive Tracks : Condition.Mode → SelfCheck.Mode → Prop where
  | outside {mode : Condition.Mode} (outside : isOutside mode = true) :
      Tracks mode .code
  | behindEmpty {mode : Condition.Mode} {quote : Char}
      (outside : isOutside mode = true)
      (isQuote : quote = '\'' ∨ quote = '"') : Tracks mode (.secondQuote quote)
  | opened {quote : Char} (isQuote : quote = '\'' ∨ quote = '"') :
      Tracks (.quoted quote) (.firstQuote quote)
  | inside {quote : Char} (isQuote : quote = '\'' ∨ quote = '"') :
      Tracks (.quoted quote) (.quoted quote)
  | escaped {quote : Char} (isQuote : quote = '\'' ∨ quote = '"') :
      Tracks (.escaped quote) (.escaped quote)

/-- The brackets of a condition, all opened on one line. -/
def bracketsAt (line : Nat) (brackets : List Char) : List (Char × Nat) :=
  brackets.map (·, line)

/-- One machine follows the other, inside of the brackets that were open in
front of the condition. -/
structure Follows
    (line : Nat) (outer : List (Char × Nat)) (scan : Scan) (lexer : Lexer) :
    Prop where
  mode : Tracks scan.mode lexer.mode
  brackets : lexer.brackets = bracketsAt line scan.brackets ++ outer

/-- No three equal quotes stand in a row. -/
def Untripled (text : List Char) : Prop :=
  ∀ quote ∈ ['\'', '"'], ¬[quote, quote, quote] <:+: text

theorem Untripled.of_infix {text more : List Char} (untripled : Untripled text)
    (isInfix : more <:+: text) : Untripled more := by
  intro quote isQuote tripled
  exact untripled quote isQuote (tripled.trans isInfix)

/-- The quote and what follows where a condition goes on with three equal
quotes. -/
def behindTriple? : List Atom → Option (Char × List Atom)
  | .char first :: .char second :: .char third :: rest =>
      if (first = '\'' ∨ first = '"') ∧ second = first ∧ third = first then
        some (first, rest)
      else none
  | _ => none

theorem behindTriple?_eq_some {atoms rest : List Atom} {quote : Char} :
    behindTriple? atoms = some (quote, rest) ↔
      (quote = '\'' ∨ quote = '"') ∧
        atoms = .char quote :: .char quote :: .char quote :: rest := by
  constructor
  · intro found
    unfold behindTriple? at found
    split at found
    · rename_i first second third behind
      split at found
      · rename_i tripled
        obtain ⟨isQuote, rfl, rfl⟩ := tripled
        cases found
        exact ⟨isQuote, rfl⟩
      · cases found
    · cases found
  · rintro ⟨isQuote, rfl⟩
    simp only [behindTriple?, isQuote, and_self, if_true]

/-- A literal that a program opens and a condition does not: its quote, the
brackets that are open in front of it, and what follows its three quotes. -/
structure LongLiteral where
  quote : Char
  brackets : List Char
  rest : List Atom
  deriving DecidableEq

/-- The character that is checked in place of an atom. -/
def maskOf : Atom → Char
  | .char c => c
  | .reference _ => '0'

theorem masked_cons (atom : Atom) (atoms : List Atom) :
    masked (atom :: atoms) = maskOf atom :: masked atoms := by
  cases atom with
  | char c => rfl
  | reference target => rfl

/-- The first place where the machine of conditions stands outside of literals
and three equal quotes follow: an empty literal, and its quote once more. -/
def longLiteral? (scan : Scan) : List Atom → Option LongLiteral
  | [] => none
  | atom :: rest =>
      match if isOutside scan.mode then behindTriple? (atom :: rest)
        else none with
      | some (quote, behind) => some ⟨quote, scan.brackets, behind⟩
      | none =>
          match scan.step Condition.allowedNames (maskOf atom) with
          | .ok next => longLiteral? next rest
          | .error _ => none

theorem longLiteral?_cons_of_step
    {scan next : Scan} {atom : Atom} {rest : List Atom}
    (notLong : (if isOutside scan.mode then behindTriple? (atom :: rest)
      else none) = none)
    (read : scan.step Condition.allowedNames (maskOf atom) = .ok next) :
    longLiteral? scan (atom :: rest) = longLiteral? next rest := by
  simp only [longLiteral?, notLong, read]

theorem longLiteral?_eq_none
    {scan : Scan} {atoms : List Atom}
    (untripled : Untripled (atoms.flatMap Atom.chars)) :
    longLiteral? scan atoms = none := by
  induction atoms generalizing scan with
  | nil => rfl
  | cons atom rest induction =>
      have ofRest : Untripled (rest.flatMap Atom.chars) := by
        apply untripled.of_infix
        rw [List.flatMap_cons]
        exact (List.suffix_append atom.chars _).isInfix
      unfold longLiteral?
      split
      · rename_i quote behind found
        split at found
        · obtain ⟨isQuote, shape⟩ := behindTriple?_eq_some.mp found
          rw [shape] at untripled
          exact absurd ⟨[], behind.flatMap Atom.chars, rfl⟩
            (untripled quote (by simpa using isQuote))
        · cases found
      · split
        · exact induction ofRest
        · rfl

/-- No third quote follows the one or two that the machine has just read. -/
def Short : SelfCheck.Mode → List Atom → Prop
  | .firstQuote quote, rest => ¬[Atom.char quote, .char quote] <+: rest
  | .secondQuote quote, rest => ¬[Atom.char quote] <+: rest
  | _, _ => True

/-- Characters of a condition outside of references. -/
def isConditionChar (c : Char) : Bool :=
  c != '\x7b' && c != '\x7d' && !Condition.isForbiddenControl c

variable {line : Nat} {outer : List (Char × Nat)} {brackets : List Char}
  {c : Char}

theorem isPlain_of_isWordPart (part : Scan.isWordPart c = true) :
    isPlain c = true :=
  isPlain_of_isFieldChar part

theorem readCode_of_codeStep
    {next : Scan} (read : Scan.CodeStep brackets c next)
    (conditionChar : isConditionChar c = true) :
    ∃ lexer, readCode line (bracketsAt line brackets ++ outer) c = .ok lexer ∧
      Follows line outer next lexer ∧
      (lexer.mode = .code ∨
        (c = '\'' ∨ c = '"') ∧ lexer.mode = .firstQuote c) := by
  have plainly : isPlain c = true →
      readCode line (bracketsAt line brackets ++ outer) c =
        .ok ⟨.code, bracketsAt line brackets ++ outer⟩ := step_code_of_isPlain
  cases read with
  | quote isQuote =>
      refine ⟨⟨.firstQuote c, bracketsAt line brackets ++ outer⟩, ?_,
        ⟨.opened isQuote, rfl⟩, .inr ⟨isQuote, rfl⟩⟩
      rcases isQuote with rfl | rfl <;> rfl
  | name afterDot start =>
      have part : Scan.isWordPart c = true := by
        simp only [Bool.or_eq_true, Text.isAlpha_iff_toNat] at start
        simp only [Scan.isWordPart, Bool.or_eq_true, Text.isAlphanum_iff_toNat]
        exact start.imp_left .inl
      exact ⟨_, plainly (isPlain_of_isWordPart part), ⟨.outside rfl, rfl⟩,
        Or.inl rfl⟩
  | number digit =>
      have part : Scan.isWordPart c = true := isFieldChar_of_isDigit digit
      exact ⟨_, plainly (isPlain_of_isWordPart part), ⟨.outside rfl, rfl⟩,
        Or.inl rfl⟩
  | opens opening =>
      refine ⟨⟨.code, (c, line) :: (bracketsAt line brackets ++ outer)⟩, ?_,
        ⟨.outside rfl, rfl⟩, Or.inl rfl⟩
      rcases opening with rfl | rfl <;> rfl
  | closes outside closing inside =>
      subst inside
      refine ⟨⟨.code, bracketsAt line outside ++ outer⟩, ?_,
        ⟨.outside rfl, rfl⟩, Or.inl rfl⟩
      rcases closing with rfl | rfl <;> rfl
  | other afterDot plain =>
      obtain ⟨noQuote, noOpening, noClosing, noHash⟩ := plain
      have isPlain : isPlain c = true := by
        simp only [not_or] at noQuote noOpening noClosing
        simpa [SelfCheck.isPlain, noQuote, noOpening, noClosing, noHash,
          isConditionChar, Condition.isForbiddenControl] using conditionChar
      exact ⟨_, plainly isPlain, ⟨.outside rfl, rfl⟩, Or.inl rfl⟩

/-- Outside of literals a character ends a word or goes on with it. -/
theorem codeStep_of_step
    {allowed : List String} {scan next : Scan}
    (outside : isOutside scan.mode = true)
    (read : scan.step allowed c = .ok next) :
    Scan.CodeStep scan.brackets c next ∨
      (Scan.isWordPart c = true ∧ isOutside next.mode = true ∧
        next.brackets = scan.brackets) := by
  obtain ⟨mode, brackets⟩ := scan
  cases mode with
  | code afterDot => exact .inl (Scan.codeStep_of_readCode read)
  | name afterDot reversed =>
      simp only [Scan.step] at read
      split at read
      · rename_i part
        cases read
        exact .inr ⟨part, rfl, rfl⟩
      · obtain ⟨_, _, read⟩ := bind_eq_ok_iff.mp read
        exact .inl (Scan.codeStep_of_readCode read)
  | number =>
      simp only [Scan.step] at read
      split at read
      · rename_i part
        cases read
        exact .inr ⟨part, rfl, rfl⟩
      · exact .inl (Scan.codeStep_of_readCode read)
  | quoted quote => cases outside
  | escaped quote => cases outside

theorem readCode_follows
    {allowed : List String} {scan next : Scan} {rest : List Atom}
    (outside : isOutside scan.mode = true)
    (read : scan.step allowed c = .ok next)
    (conditionChar : isConditionChar c = true)
    (notLong : behindTriple? (.char c :: rest) = none) :
    ∃ lexer,
      readCode line (bracketsAt line scan.brackets ++ outer) c = .ok lexer ∧
      Follows line outer next lexer ∧ Short lexer.mode rest := by
  rcases codeStep_of_step outside read with
    codeStep | ⟨part, stillOutside, same⟩
  · obtain ⟨lexer, reads, follows, inCode | ⟨isQuote, opened⟩⟩ :
        ∃ lexer, readCode line (bracketsAt line scan.brackets ++ outer) c =
          .ok lexer ∧ _ :=
      readCode_of_codeStep codeStep conditionChar
    · refine ⟨lexer, reads, follows, ?_⟩
      rw [inCode]
      trivial
    · refine ⟨lexer, reads, follows, ?_⟩
      rw [opened]
      rintro ⟨behind, rfl⟩
      have found : behindTriple? (.char c :: .char c :: .char c :: behind) =
          some (c, behind) :=
        behindTriple?_eq_some.mpr ⟨isQuote, rfl⟩
      exact absurd (found.symm.trans notLong) (by simp)
  · refine ⟨_, step_code_of_isPlain (isPlain_of_isWordPart part),
      ⟨.outside stillOutside, ?_⟩, trivial⟩
    rw [same]

theorem quotedStep {allowed : List String} {quote : Char} {next : Scan}
    (read : Scan.step allowed ⟨.quoted quote, brackets⟩ c = .ok next) :
    (c = '\\' ∧ next = ⟨.escaped quote, brackets⟩) ∨
      (c = quote ∧ next = ⟨.code false, brackets⟩) ∨
      (c ≠ '\\' ∧ c ≠ quote ∧ next = ⟨.quoted quote, brackets⟩) := by
  by_cases backslash : c = '\\'
  · subst backslash
    cases read
    exact .inl ⟨rfl, rfl⟩
  · by_cases closing : c = quote
    · subst closing
      simp only [Scan.step, beq_iff_eq, backslash, if_false, if_true] at read
      cases read
      exact .inr (.inl ⟨rfl, rfl⟩)
    · simp only [Scan.step, beq_iff_eq, backslash, closing, if_false] at read
      cases read
      exact .inr (.inr ⟨backslash, closing, rfl⟩)

/-- Both machines take a step, unless the program opens a long literal. -/
theorem step_follows
    {allowed : List String} {scan next : Scan} {lexer : Lexer}
    {rest : List Atom} (follows : Follows line outer scan lexer)
    (read : scan.step allowed c = .ok next)
    (conditionChar : isConditionChar c = true)
    (short : Short lexer.mode (.char c :: rest))
    (notLong : isOutside scan.mode = true →
      behindTriple? (.char c :: rest) = none) :
    ∃ after, step line lexer c = .ok after ∧ Follows line outer next after ∧
      Short after.mode rest := by
  obtain ⟨scanMode, scanBrackets⟩ := scan
  obtain ⟨mode, brackets⟩ := lexer
  obtain ⟨tracks, same⟩ := follows
  simp only at tracks same
  subst same
  cases tracks with
  | outside outside =>
      exact readCode_follows outside read conditionChar (notLong outside)
  | @behindEmpty _ quote outside isQuote =>
      obtain ⟨after, readCode, follows, shortAfter⟩ :=
        readCode_follows outside read conditionChar (notLong outside)
      have different : c ≠ quote := by
        rintro rfl
        exact short ⟨rest, rfl⟩
      refine ⟨after, ?_, follows, shortAfter⟩
      simpa only [step, beq_iff_eq, different, if_false] using readCode
  | @opened quote isQuote =>
      rcases quotedStep read with
        ⟨rfl, rfl⟩ | ⟨rfl, rfl⟩ | ⟨noBackslash, noQuote, rfl⟩
      · refine ⟨⟨.escaped quote, _⟩, ?_, ⟨.escaped isQuote, rfl⟩, trivial⟩
        rcases isQuote with rfl | rfl <;> rfl
      · refine ⟨⟨.secondQuote c, _⟩, ?_, ⟨.behindEmpty rfl isQuote, rfl⟩, ?_⟩
        · simp only [step, beq_self_eq_true, if_true]
        · rintro ⟨behind, rfl⟩
          exact short ⟨behind, rfl⟩
      · refine ⟨⟨.quoted quote, _⟩, ?_, ⟨.inside isQuote, rfl⟩, trivial⟩
        simp only [step, beq_iff_eq, noBackslash, noQuote, if_false]
  | @inside quote isQuote =>
      rcases quotedStep read with
        ⟨rfl, rfl⟩ | ⟨rfl, rfl⟩ | ⟨noBackslash, noQuote, rfl⟩
      · exact ⟨⟨.escaped quote, _⟩, rfl, ⟨.escaped isQuote, rfl⟩, trivial⟩
      · refine ⟨⟨.code, _⟩, ?_, ⟨.outside rfl, rfl⟩, trivial⟩
        rcases isQuote with rfl | rfl <;> rfl
      · refine ⟨⟨.quoted quote, _⟩, ?_, ⟨.inside isQuote, rfl⟩, trivial⟩
        simp only [step, beq_iff_eq, noBackslash, noQuote, if_false]
  | @escaped quote isQuote =>
      cases read
      exact ⟨_, rfl, ⟨.inside isQuote, rfl⟩, trivial⟩

variable {rest : List Char}

theorem readRest_quoted_append {quote : Char} {text : List Char}
    (inert : ∀ c ∈ text, c ≠ '\\' ∧ c ≠ quote) :
    readRest line ⟨.quoted quote, outer⟩ (text ++ rest) =
      readRest line ⟨.quoted quote, outer⟩ rest := by
  induction text with
  | nil => rfl
  | cons c text induction =>
      obtain ⟨first, others⟩ := List.forall_mem_cons.mp inert
      rw [List.cons_append, readRest_quoted first.1 first.2, induction others]

/-- Between double quotes a quoted name ends the literal and opens it again. -/
theorem readRest_exposed
    {name : List Char} (plain : ∀ c ∈ name, isPlain c = true) {next : Char}
    (noQuote : next ≠ '"') :
    readRest line ⟨.quoted '"', outer⟩ ('"' :: (name ++ '"' :: next :: rest)) =
      readRest line ⟨.quoted '"', outer⟩ (next :: rest) := by
  have ends : step line ⟨.quoted '"', outer⟩ '"' = .ok ⟨.code, outer⟩ := rfl
  have opens : step line ⟨.code, outer⟩ '"' = .ok ⟨.firstQuote '"', outer⟩ :=
    rfl
  rw [readRest_cons_of_step ends,
    (sealed_of_isPlain (List.all_eq_true.mpr plain)).reads,
    readRest_cons_of_step opens, readRest_cons, step_firstQuote noQuote,
    ← readRest_cons]

/-- Between double quotes the fields of a lookup leave the literal open. -/
theorem readRest_fields
    (line : Nat) (outer : List (Char × Nat)) (rest : List Char)
    {fields : List String}
    (wellFormed : ∀ field ∈ fields,
      field.toList ≠ [] ∧ ∀ c ∈ field.toList, Reference.isFieldChar c = true) :
    ∃ next more,
      (fields.flatMap fun field =>
        ',' :: ' ' :: (fieldExpression field).toList) ++
        ')' :: rest = next :: more ∧ next ≠ '"' ∧
      readRest line ⟨.quoted '"', outer⟩ (next :: more) =
        readRest line ⟨.quoted '"', outer⟩ rest := by
  induction fields with
  | nil =>
      exact ⟨')', rest, rfl, by decide,
        readRest_quoted (by decide) (by decide)⟩
  | cons field fields induction =>
      obtain ⟨⟨notEmpty, fieldChars⟩, ofOthers⟩ :=
        List.forall_mem_cons.mp wellFormed
      obtain ⟨next, more, shape, noQuote, reads⟩ := induction ofOthers
      refine ⟨',', ' ' :: ((fieldExpression field).toList ++ next :: more), ?_,
        by decide, ?_⟩
      · rw [← shape]
        simp
      · rw [readRest_quoted (by decide) (by decide),
          readRest_quoted (by decide) (by decide)]
        rcases fieldExpression_toList notEmpty fieldChars with
          ⟨_, _, digits⟩ | ⟨_, quoted⟩
        · rw [readRest_quoted_append, reads]
          intro c member
          constructor
          · rintro rfl
            exact absurd (digits _ member) (by decide)
          · rintro rfl
            exact absurd (digits _ member) (by decide)
        · have plain : ∀ c ∈ field.toList, isPlain c = true :=
            fun c member => isPlain_of_isFieldChar (fieldChars c member)
          rw [quoted, List.cons_append, List.append_assoc,
            List.singleton_append, readRest_exposed plain noQuote, reads]

/-- Inside of a literal a lookup leaves the literal open. -/
theorem exists_lookup_eq_cons
    {target : Reference} (wellFormed : target.WellFormed) {quote : Char}
    (isQuote : quote = '\'' ∨ quote = '"') :
    ∃ behind, (lookup target).toList = 'c' :: behind ∧
      ∀ line outer rest,
        readRest line ⟨.quoted quote, outer⟩ (behind ++ rest) =
        readRest line ⟨.quoted quote, outer⟩ rest := by
  refine ⟨_, lookup_toList wellFormed, ?_⟩
  intro line outer rest
  rcases isQuote with rfl | rfl
  · apply readRest_quoted_append
    intro c member
    have inLookup : c ∈ (lookup target).toList := by
      rw [lookup_toList wellFormed]
      exact List.mem_cons_of_mem 'c' member
    rcases mem_lookup wellFormed inLookup with fieldChar | other
    · constructor
      · rintro rfl
        exact absurd fieldChar (by decide)
      · rintro rfl
        exact absurd fieldChar (by decide)
    · have all :
          ∀ c ∈ ['.', '(', '"', ',', ' ', ')'], c ≠ '\\' ∧ c ≠ '\'' := by simp
      exact all c other
  · obtain ⟨next, more, shape, noQuote, reads⟩ :=
      readRest_fields line outer rest wellFormed.fields
    have plain : ∀ c ∈ target.root.toList, isPlain c = true :=
      fun c member =>
        isPlain_of_isFieldChar (wellFormed.isFieldChar_of_mem_root c member)
    have inert :
        ∀ c ∈ ['t', 'x', '.', 'g', 'e', 't', '('], c ≠ '\\' ∧ c ≠ '"' := by
      simp
    have start :
        readRest line ⟨.quoted '"', outer⟩
          (['t', 'x', '.', 'g', 'e', 't', '('] ++ '"' ::
            (target.root.toList ++ '"' :: next :: more)) = _ :=
      readRest_quoted_append inert
    rw [readRest_exposed plain noQuote, reads, ← shape] at start
    simpa using start

theorem step_zero_of_isOutside
    {allowed : List String} {scan next : Scan}
    (outside : isOutside scan.mode = true)
    (read : scan.step allowed '0' = .ok next) :
    isOutside next.mode = true ∧ next.brackets = scan.brackets := by
  rcases codeStep_of_step outside read with codeStep | ⟨_, stillOutside, same⟩
  · cases codeStep with
    | quote isQuote => exact absurd isQuote (by decide)
    | name => exact ⟨rfl, rfl⟩
    | number => exact ⟨rfl, rfl⟩
    | opens opening => exact absurd opening (by decide)
    | closes _ closing => exact absurd closing (by decide)
    | other => exact ⟨rfl, rfl⟩
  · exact ⟨stillOutside, same⟩

/-- The machine of the self-check takes a lookup as that of conditions takes a
number. -/
theorem readRest_lookup
    {allowed : List String} {scan next : Scan} {lexer : Lexer}
    (follows : Follows line outer scan lexer)
    (read : scan.step allowed '0' = .ok next) {target : Reference}
    (wellFormed : target.WellFormed) (rest : List Char) :
    ∃ after,
      Follows line outer next after ∧ (∀ atoms, Short after.mode atoms) ∧
      readRest line lexer ((lookup target).toList ++ rest) =
        readRest line after rest := by
  obtain ⟨scanMode, scanBrackets⟩ := scan
  obtain ⟨mode, brackets⟩ := lexer
  obtain ⟨tracks, same⟩ := follows
  simp only at tracks same
  subst same
  -- in a literal the first letter is taken in, and then the literal goes on
  have inLiteral : ∀ {quote : Char}, (quote = '\'' ∨ quote = '"') →
      next = ⟨.quoted quote, scanBrackets⟩ →
      step line ⟨mode, bracketsAt line scanBrackets ++ outer⟩ 'c' =
        .ok ⟨.quoted quote, bracketsAt line scanBrackets ++ outer⟩ →
      ∃ after,
        Follows line outer next after ∧ (∀ atoms, Short after.mode atoms) ∧
        readRest line ⟨mode, bracketsAt line scanBrackets ++ outer⟩
          ((lookup target).toList ++ rest) = readRest line after rest := by
    rintro quote isQuote rfl first
    obtain ⟨behind, shape, reads⟩ := exists_lookup_eq_cons wellFormed isQuote
    refine ⟨⟨.quoted quote, _⟩, ⟨.inside isQuote, rfl⟩, fun _ => trivial, ?_⟩
    rw [shape, List.cons_append, readRest_cons_of_step first, reads]
  cases tracks with
  | outside outside =>
      obtain ⟨stillOutside, same⟩ := step_zero_of_isOutside outside read
      refine ⟨⟨.code, _⟩, ⟨.outside stillOutside, rfl⟩, fun _ => trivial, ?_⟩
      rw [(sealed_lookup target).reads, same]
  | @behindEmpty _ quote outside isQuote =>
      obtain ⟨stillOutside, same⟩ := step_zero_of_isOutside outside read
      refine ⟨⟨.code, _⟩, ⟨.outside stillOutside, rfl⟩, fun _ => trivial, ?_⟩
      rw [readRest_secondQuote, (sealed_lookup target).reads, same]
      obtain ⟨behind, shape, _⟩ := exists_lookup_eq_cons wellFormed isQuote
      rw [shape]
      rintro _ ⟨⟩ rfl
      exact absurd isQuote (by decide)
  | opened isQuote =>
      rcases isQuote with rfl | rfl
      · exact inLiteral (.inl rfl) (Except.ok.inj read).symm rfl
      · exact inLiteral (.inr rfl) (Except.ok.inj read).symm rfl
  | inside isQuote =>
      rcases isQuote with rfl | rfl
      · exact inLiteral (.inl rfl) (Except.ok.inj read).symm rfl
      · exact inLiteral (.inr rfl) (Except.ok.inj read).symm rfl
  | escaped isQuote => exact inLiteral isQuote (Except.ok.inj read).symm rfl

/-- Where a condition may end the machine stands as it stood in front of it. -/
theorem readRest_finish
    {scan : Scan} {lexer : Lexer} (follows : Follows line outer scan lexer)
    (finished : scan.outcome Condition.allowedNames [] = .ok ())
    (unquoted : Unquoted rest) :
    readRest line lexer rest = readRest line ⟨.code, outer⟩ rest := by
  obtain ⟨closed, notQuoted⟩ := Scan.finish_eq_ok finished
  obtain ⟨mode, brackets⟩ := lexer
  obtain ⟨tracks, same⟩ := follows
  simp only at tracks same
  rw [closed] at same
  subst same
  generalize scan.mode = scanMode at tracks notQuoted
  cases tracks with
  | outside _ => rfl
  | behindEmpty _ isQuote =>
      apply readRest_secondQuote
      intro c head
      rcases isQuote with rfl | rfl
      · exact (unquoted c head).1
      · exact (unquoted c head).2
  | @opened quote => exact absurd rfl (notQuoted quote).1
  | @inside quote => exact absurd rfl (notQuoted quote).1
  | @escaped quote => exact absurd rfl (notQuoted quote).2

/-- Three equal quotes open a long literal where the machine of conditions
stands outside of literals. -/
theorem readRest_triple
    {scan : Scan} {lexer : Lexer} {quote : Char} {behind : List Atom}
    (follows : Follows line outer scan lexer)
    (outside : isOutside scan.mode = true)
    (isQuote : quote = '\'' ∨ quote = '"')
    (short :
      Short lexer.mode (.char quote :: .char quote :: .char quote :: behind)) :
    readRest line lexer (quote :: quote :: quote :: rest) =
      readRest line ⟨.triple quote 0, bracketsAt line scan.brackets ++ outer⟩
        rest := by
  obtain ⟨scanMode, scanBrackets⟩ := scan
  obtain ⟨mode, brackets⟩ := lexer
  obtain ⟨tracks, same⟩ := follows
  simp only at tracks same
  subst same
  have fromCode : readRest line ⟨.code, bracketsAt line scanBrackets ++ outer⟩
      (quote :: quote :: quote :: rest) =
        readRest line ⟨.triple quote 0, bracketsAt line scanBrackets ++ outer⟩
          rest := by
    rcases isQuote with rfl | rfl <;> rfl
  cases tracks with
  | outside _ => exact fromCode
  | @behindEmpty _ earlier _ _ =>
      rw [readRest_secondQuote, fromCode]
      rintro _ ⟨⟩ rfl
      exact short ⟨_, rfl⟩
  | opened _ => cases outside
  | inside _ => cases outside
  | escaped _ => cases outside

/-- The machine of the self-check reads an accepted condition to its end, or up
to the first long literal in it. -/
theorem readRest_emitted {atoms : List Atom} {scan : Scan} {lexer : Lexer}
    (wellFormed : ∀ target, .reference target ∈ atoms → target.WellFormed)
    (conditionChars : ∀ c, .char c ∈ atoms → isConditionChar c = true)
    (follows : Follows line outer scan lexer) (short : Short lexer.mode atoms)
    (accepted : scan.outcome Condition.allowedNames (masked atoms) = .ok ())
    (unquoted : Unquoted rest) :
    readRest line lexer (emitted atoms ++ rest) =
      match longLiteral? scan atoms with
      | none => readRest line ⟨.code, outer⟩ rest
      | some long =>
          readRest line
            ⟨.triple long.quote 0, bracketsAt line long.brackets ++ outer⟩
            (emitted long.rest ++ rest) := by
  induction atoms generalizing scan lexer with
  | nil => exact readRest_finish follows accepted unquoted
  | cons atom atoms induction =>
      have ofRest := fun target member =>
        wellFormed target (List.mem_cons_of_mem atom member)
      have charsOfRest :=
        fun c member => conditionChars c (List.mem_cons_of_mem atom member)
      cases found : if isOutside scan.mode then behindTriple? (atom :: atoms)
        else none with
      | some triple =>
          obtain ⟨quote, behind⟩ := triple
          obtain ⟨outside, found⟩ := Option.ite_none_right_eq_some.mp found
          obtain ⟨isQuote, shape⟩ := behindTriple?_eq_some.mp found
          simp only [longLiteral?, outside, found, if_true]
          rw [shape] at short ⊢
          exact readRest_triple follows outside isQuote short
      | none =>
          obtain ⟨next, read, later⟩ :=
            Scan.outcome_cons_eq_ok (masked_cons atom atoms ▸ accepted)
          rw [longLiteral?_cons_of_step found read]
          have notLong : isOutside scan.mode = true →
              behindTriple? (atom :: atoms) = none := by
            intro outside
            rwa [if_pos outside] at found
          cases atom with
          | char c =>
              obtain ⟨after, step, followsAfter, shortAfter⟩ :=
                step_follows follows read (conditionChars c List.mem_cons_self)
                  short notLong
              have goes :
                  readRest line lexer (emitted (.char c :: atoms) ++ rest) =
                    readRest line after (emitted atoms ++ rest) :=
                readRest_cons_of_step step
              rw [goes]
              exact induction ofRest charsOfRest followsAfter shortAfter later
          | reference target =>
              obtain ⟨after, followsAfter, shortAfter, reads⟩ :=
                readRest_lookup follows read
                  (wellFormed target List.mem_cons_self)
                  (emitted atoms ++ rest)
              have goes : emitted (.reference target :: atoms) ++ rest =
                  (lookup target).toList ++ (emitted atoms ++ rest) :=
                List.append_assoc _ _ _
              rw [goes, reads]
              exact induction ofRest charsOfRest followsAfter
                (shortAfter atoms) later

/-- Reserved characters stand in references only. -/
theorem not_isReserved_of_stray
    {text : List Char} (notStray : Condition.strayReserved? text = none)
    (member : .char c ∈ Template.atoms (Text.trim text)) :
    Condition.isReserved c = false := by
  have inTrimmed : c ∈ Template.substitute (fun _ => []) (Text.trim text) := by
    exact List.mem_flatMap.mpr ⟨.char c, member, List.mem_singleton.mpr rfl⟩
  obtain ⟨lead, trail, parts, _, _⟩ :=
    Template.exists_substitute_eq (fun _ => []) text
  have inWhole : c ∈ Template.substitute (fun _ => []) text := by
    rw [parts]
    exact List.mem_append_right lead (List.mem_append_left trail inTrimmed)
  unfold Condition.strayReserved? at notStray
  split at notStray
  · rename_i nothing
    simpa using List.dropWhile_eq_nil_iff.mp nothing c inWhole
  · cases notStray

theorem isConditionChar_of_check {condition : String}
    (accepted : Condition.check condition = .ok ())
    (member : .char c ∈ Template.atoms (Text.trim condition.toList)) :
    isConditionChar c = true := by
  obtain ⟨_, notDenied, _, notStray, _⟩ :=
    Condition.check_eq_ok_iff.mp accepted
  have notReserved := not_isReserved_of_stray notStray member
  have inTrimmed : c ∈ Text.trim condition.toList := by
    rw [← Template.flatMap_chars_atoms (Text.trim condition.toList)]
    exact List.mem_flatMap.mpr ⟨.char c, member, List.mem_singleton.mpr rfl⟩
  have notForbidden := (Condition.denied?_eq_none_iff.mp notDenied).2.1 c
    ((Text.trim_isInfix _).subset inTrimmed)
  simp only [Condition.isReserved, Bool.or_eq_false_iff] at notReserved
  obtain ⟨⟨noOpening, noClosing⟩, _⟩ := notReserved
  simp [isConditionChar, notForbidden, bne, noOpening, noClosing]

theorem conditionExpression_toList (condition : String) :
    (conditionExpression condition).toList =
      emitted (Template.atoms (Text.trim condition.toList)) := by
  rw [conditionExpression, String.toList_ofList]
  rfl

theorem inline_conditionExpression {condition : String}
    (accepted : Condition.check condition = .ok ()) :
    Inline (conditionExpression condition).toList := by
  rw [conditionExpression_toList]
  intro c member
  obtain ⟨atom, isAtom, inAtom⟩ := List.mem_flatMap.mp member
  cases atom with
  | char d =>
      obtain rfl := List.mem_singleton.mp inAtom
      have conditionChar := isConditionChar_of_check accepted isAtom
      constructor
      · rintro rfl
        exact absurd conditionChar (by decide)
      · rintro rfl
        exact absurd conditionChar (by decide)
  | reference target => exact (sealed_lookup target).inline c inAtom

/-- The first long literal of the program in the expression of a condition. -/
def conditionLongLiteral? (condition : String) : Option LongLiteral :=
  longLiteral? Scan.start (Template.atoms (Text.trim condition.toList))

/-- Behind the expression of an accepted condition the machine of the
self-check stands where it stood in front of it, unless the expression opens a
long literal. -/
theorem readRest_conditionExpression
    {condition : String} (accepted : Condition.check condition = .ok ())
    (unquoted : Unquoted rest) :
    readRest line ⟨.code, outer⟩
      ((conditionExpression condition).toList ++ rest) =
      match conditionLongLiteral? condition with
      | none => readRest line ⟨.code, outer⟩ rest
      | some long =>
          readRest line
            ⟨.triple long.quote 0, bracketsAt line long.brackets ++ outer⟩
            (emitted long.rest ++ rest) := by
  have wellFormed : ∀ target,
      .reference target ∈ Template.atoms (Text.trim condition.toList) →
      target.WellFormed := fun _ => Template.wellFormed_of_mem_atoms
  have conditionChars :
      ∀ c, .char c ∈ Template.atoms (Text.trim condition.toList) →
      isConditionChar c = true := fun _ => isConditionChar_of_check accepted
  have starts : Follows line outer Scan.start ⟨.code, outer⟩ :=
    ⟨.outside rfl, rfl⟩
  rw [conditionExpression_toList]
  exact readRest_emitted wellFormed conditionChars starts trivial
    (Condition.outcome_masked accepted) unquoted

theorem conditionLongLiteral?_eq_none
    {condition : String} (untripled : Untripled condition.toList) :
    conditionLongLiteral? condition = none := by
  apply longLiteral?_eq_none
  rw [Template.flatMap_chars_atoms]
  exact untripled.of_infix (Text.trim_isInfix condition.toList)

/-- The expression of an accepted condition without triple quotes is
complete. -/
theorem expression_conditionExpression
    {condition : String} (accepted : Condition.check condition = .ok ())
    (untripled : Untripled condition.toList) :
    Expression (conditionExpression condition).toList := by
  refine ⟨inline_conditionExpression accepted, ?_⟩
  intro line brackets rest unquoted
  rw [readRest_conditionExpression accepted unquoted,
    conditionLongLiteral?_eq_none untripled]

end Workflow.Program
