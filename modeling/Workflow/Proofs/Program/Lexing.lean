import Workflow.Program.SelfCheck
import Workflow.Proofs.Sequencing
import Workflow.Text.Quoted

/-!
# Fragments that leave the machine where it was

Reading a complete expression brings the machine of the self-check back to
where it stood: outside of literals, with the same brackets open.  Whether this
is so can depend on what follows, since a quote right behind an empty literal
would make the beginning of a longer one.
-/

namespace Workflow.Program.SelfCheck

variable {line : Nat} {brackets : List (Char × Nat)}
  {text inner more rest : List Char} {c : Char}

/-- Reads the rest of a line and ends the line. -/
def readRest (line : Nat) (lexer : Lexer) (rest : List Char) :
    Except Defect Lexer := do
  let reached ← rest.foldlM (step line) lexer
  endLine line reached

theorem readRest_cons (lexer : Lexer) :
    readRest line lexer (c :: rest) =
      step line lexer c >>= (readRest line · rest) := by
  simp only [readRest, List.foldlM_cons, bind_assoc]

theorem readRest_cons_of_step
    {lexer next : Lexer} (read : step line lexer c = .ok next) :
    readRest line lexer (c :: rest) = readRest line next rest := by
  rw [readRest_cons, read, ok_bind]

/-- The text does not begin with a quote. -/
def Unquoted (rest : List Char) : Prop :=
  ∀ c ∈ rest.head?, c ≠ '\'' ∧ c ≠ '"'

/-- The text stays on one line. -/
def Inline (text : List Char) : Prop :=
  ∀ c ∈ text, c ≠ '\n' ∧ c ≠ '\x00'

/-- A text behind which reading goes on as in front of it, as long as no quote
follows. -/
structure Expression (text : List Char) : Prop where
  inline : Inline text
  reads : ∀ (line : Nat) (brackets : List (Char × Nat)) {rest : List Char},
      Unquoted rest →
    readRest line ⟨.code, brackets⟩ (text ++ rest) =
      readRest line ⟨.code, brackets⟩ rest

/-- A text behind which reading goes on as in front of it, whatever follows. -/
structure Sealed (text : List Char) : Prop where
  inline : Inline text
  reads : ∀ (line : Nat) (brackets : List (Char × Nat)) (rest : List Char),
    readRest line ⟨.code, brackets⟩ (text ++ rest) =
      readRest line ⟨.code, brackets⟩ rest

theorem unquoted_cons (other : c ≠ '\'' ∧ c ≠ '"') : Unquoted (c :: rest) := by
  rintro _ ⟨⟩
  exact other

theorem unquoted_append (notEmpty : more ≠ []) (unquoted : Unquoted more) :
    Unquoted (more ++ rest) := by
  obtain ⟨first, others, rfl⟩ := List.exists_cons_of_ne_nil notEmpty
  rintro _ ⟨⟩
  exact unquoted first rfl

theorem Inline.append (left : Inline text) (right : Inline more) :
    Inline (text ++ more) := by
  intro c member
  rcases List.mem_append.mp member with inText | inMore
  · exact left c inText
  · exact right c inMore

theorem Sealed.expression (isSealed : Sealed text) : Expression text :=
  ⟨isSealed.inline,
    fun line brackets rest _ => isSealed.reads line brackets rest⟩

theorem Sealed.append (left : Sealed text) (right : Sealed more) :
    Sealed (text ++ more) := by
  refine ⟨left.inline.append right.inline, ?_⟩
  intro line brackets rest
  rw [List.append_assoc, left.reads, right.reads]

theorem Sealed.append_expression
    (left : Sealed text) (right : Expression more) :
    Expression (text ++ more) := by
  refine ⟨left.inline.append right.inline, ?_⟩
  intro line brackets rest unquoted
  rw [List.append_assoc, left.reads, right.reads line brackets unquoted]

theorem Expression.append_sealed
    (left : Expression text) (right : Sealed more) (notEmpty : more ≠ [])
    (unquoted : Unquoted more) :
    Sealed (text ++ more) := by
  refine ⟨left.inline.append right.inline, ?_⟩
  intro line brackets rest
  rw [List.append_assoc,
    left.reads line brackets (unquoted_append notEmpty unquoted), right.reads]

/-- Characters that mean nothing to the machine outside of literals. -/
def isPlain (c : Char) : Bool :=
  !(c == '#' || c == '\'' || c == '"' || c == '(' || c == '[' || c == '\x7b' ||
    c == ')' || c == ']' || c == '\x7d' || (Text.isControl c && c != '\t'))

theorem step_code_of_isPlain (plain : isPlain c = true) :
    step line ⟨.code, brackets⟩ c = .ok ⟨.code, brackets⟩ := by
  simp only [isPlain, Bool.not_eq_true', Bool.or_eq_false_iff] at plain
  obtain ⟨⟨⟨⟨⟨⟨⟨⟨⟨hash, apostrophe⟩, quote⟩, parenthesis⟩, bracket⟩, brace⟩,
    closes⟩, closesBracket⟩, closesBrace⟩, control⟩ := plain
  simp [step, readCode, hash, apostrophe, quote, parenthesis, bracket, brace,
    closes, closesBracket, closesBrace, control]

theorem inline_of_isPlain (plain : text.all isPlain = true) : Inline text := by
  have each := List.all_eq_true.mp plain
  intro c member
  constructor
  · rintro rfl
    exact absurd (each _ member) (by decide)
  · rintro rfl
    exact absurd (each _ member) (by decide)

theorem sealed_of_isPlain (plain : text.all isPlain = true) : Sealed text := by
  refine ⟨inline_of_isPlain plain, ?_⟩
  intro line brackets rest
  induction text with
  | nil => rfl
  | cons c text induction =>
      rw [List.all_cons, Bool.and_eq_true] at plain
      obtain ⟨first, others⟩ := plain
      rw [List.cons_append, readRest_cons_of_step (step_code_of_isPlain first),
        induction others]

/-- An opening bracket and the closing one that pairs up with it. -/
def Pair (opens closes : Char) : Prop :=
  (opens, closes) ∈ [('(', ')'), ('[', ']'), ('\x7b', '\x7d')]

theorem Pair.steps
    {opens closes : Char} (pair : Pair opens closes) (line : Nat)
    (brackets : List (Char × Nat)) :
    step line ⟨.code, brackets⟩ opens =
      .ok ⟨.code, (opens, line) :: brackets⟩ ∧
      step line ⟨.code, (opens, line) :: brackets⟩ closes =
        .ok ⟨.code, brackets⟩ := by
  simp only [Pair, List.mem_cons, Prod.mk.injEq, List.not_mem_nil,
    or_false] at pair
  rcases pair with ⟨rfl, rfl⟩ | ⟨rfl, rfl⟩ | ⟨rfl, rfl⟩ <;> exact ⟨rfl, rfl⟩

theorem Pair.inline {opens closes : Char} (pair : Pair opens closes) :
    (closes ≠ '\'' ∧ closes ≠ '"') ∧ Inline [opens, closes] := by
  have all : ∀ pair ∈ [('(', ')'), ('[', ']'), ('\x7b', '\x7d')],
      (pair.2 ≠ '\'' ∧ pair.2 ≠ '"') ∧
      ∀ c ∈ [pair.1, pair.2], c ≠ '\n' ∧ c ≠ '\x00' := by simp
  exact all _ pair

/-- An expression between brackets is sealed. -/
theorem sealed_brackets
    {opens closes : Char} (pair : Pair opens closes)
    (expression : Expression inner) :
    Sealed (opens :: (inner ++ [closes])) := by
  obtain ⟨unquoted, inline⟩ := pair.inline
  refine ⟨?_, ?_⟩
  · intro c member
    rcases List.mem_cons.mp member with rfl | inside
    · exact inline c List.mem_cons_self
    · rcases List.mem_append.mp inside with inInner | last
      · exact expression.inline c inInner
      · exact inline c (List.mem_cons_of_mem _ last)
  · intro line brackets rest
    obtain ⟨opened, closed⟩ := pair.steps line brackets
    rw [List.cons_append, readRest_cons_of_step opened, List.append_assoc,
      List.singleton_append, expression.reads line _ (unquoted_cons unquoted),
      readRest_cons_of_step closed]

theorem readRest_secondQuote
    {quote : Char} (apart : ∀ c ∈ rest.head?, c ≠ quote) :
    readRest line ⟨.secondQuote quote, brackets⟩ rest =
      readRest line ⟨.code, brackets⟩ rest := by
  cases rest with
  | nil => rfl
  | cons c rest =>
      have different : c ≠ quote := apart c rfl
      simp only [readRest_cons, step, beq_iff_eq, different, if_false]

theorem step_firstQuote {quote : Char} (different : c ≠ quote) :
    step line ⟨.firstQuote quote, brackets⟩ c =
      step line ⟨.quoted quote, brackets⟩ c := by
  simp only [step, beq_iff_eq, different, if_false]

/-- The three ways in which a character is written between quotes. -/
theorem escape_cases (c : Char) :
    (∃ letter ∈ ['"', '\\', 'b', 't', 'n', 'f', 'r'],
      Text.escape c = ['\\', letter]) ∨
      (∃ high low, high < 16 ∧ low < 16 ∧
        Text.escape c =
          ['\\', 'u', '0', '0', Text.hexDigit high, Text.hexDigit low]) ∨
      (Text.escape c = [c] ∧ c ≠ '"' ∧ c ≠ '\\' ∧ c ≠ '\n' ∧ c ≠ '\x00') := by
  fun_cases Text.escape c with
  | case8 =>
      exact .inr (.inl ⟨c.toNat / 16, c.toNat % 16, by omega, by omega, rfl⟩)
  | case9 noQuote noBackslash _ _ noFeed _ _ printed =>
      refine .inr (.inr ⟨rfl, noQuote, noBackslash, noFeed, ?_⟩)
      rintro rfl
      exact absurd (by decide) printed
  | _ => exact .inl ⟨_, by decide, rfl⟩

theorem hexDigit_inert {digit : Nat} (small : digit < 16) :
    Text.hexDigit digit ≠ '"' ∧ Text.hexDigit digit ≠ '\\' ∧
    Text.hexDigit digit ≠ '\n' ∧
      Text.hexDigit digit ≠ '\x00' := by
  have all : ∀ digit : Fin 16,
      Text.hexDigit digit.val ≠ '"' ∧ Text.hexDigit digit.val ≠ '\\' ∧
      Text.hexDigit digit.val ≠ '\n' ∧ Text.hexDigit digit.val ≠ '\x00' := by
    decide
  exact all ⟨digit, small⟩

theorem readRest_quoted
    {quote : Char} (noBackslash : c ≠ '\\') (noQuote : c ≠ quote) :
    readRest line ⟨.quoted quote, brackets⟩ (c :: rest) =
      readRest line ⟨.quoted quote, brackets⟩ rest := by
  simp only [readRest_cons, step, beq_iff_eq, noBackslash, noQuote, if_false,
    ok_bind]

theorem readRest_escaped {quote : Char} :
    readRest line ⟨.quoted quote, brackets⟩ ('\\' :: c :: rest) =
      readRest line ⟨.quoted quote, brackets⟩ rest := by
  have escaped : step line ⟨.quoted quote, brackets⟩ '\\' =
      .ok ⟨.escaped quote, brackets⟩ := rfl
  have quoted :
      step line ⟨.escaped quote, brackets⟩ c = .ok ⟨.quoted quote, brackets⟩ :=
    rfl
  rw [readRest_cons_of_step escaped, readRest_cons_of_step quoted]

/-- A written character keeps the machine inside of the literal. -/
theorem readRest_escape (c : Char) :
    readRest line ⟨.quoted '"', brackets⟩ (Text.escape c ++ rest) =
      readRest line ⟨.quoted '"', brackets⟩ rest := by
  rcases escape_cases c with
    ⟨letter, _, shape⟩ | ⟨high, low, highSmall, lowSmall, shape⟩
      | ⟨shape, noQuote, noBackslash, _⟩
  · rw [shape]
    exact readRest_escaped
  · obtain ⟨highQuote, highBackslash, _⟩ := hexDigit_inert highSmall
    obtain ⟨lowQuote, lowBackslash, _⟩ := hexDigit_inert lowSmall
    simp only [shape, List.cons_append, List.nil_append]
    rw [readRest_escaped, readRest_quoted (by decide) (by decide),
      readRest_quoted (by decide) (by decide),
      readRest_quoted highBackslash highQuote,
      readRest_quoted lowBackslash lowQuote]
  · rw [shape]
    exact readRest_quoted noBackslash noQuote

theorem readRest_flatMap_escape (text rest : List Char) :
    readRest line ⟨.quoted '"', brackets⟩
      (text.flatMap Text.escape ++ '"' :: rest) =
      readRest line ⟨.code, brackets⟩ rest := by
  induction text with
  | nil => rfl
  | cons c text induction =>
      rw [List.flatMap_cons, List.append_assoc, readRest_escape, induction]

theorem escape_eq_cons (c : Char) :
    ∃ first others, Text.escape c = first :: others ∧ first ≠ '"' := by
  rcases escape_cases c with
    ⟨letter, _, shape⟩ | ⟨high, low, _, _, shape⟩ | ⟨shape, noQuote, _⟩
  · exact ⟨_, _, shape, by decide⟩
  · exact ⟨_, _, shape, by decide⟩
  · exact ⟨_, _, shape, noQuote⟩

theorem inline_escape (c : Char) : Inline (Text.escape c) := by
  intro d member
  rcases escape_cases c with
    ⟨letter, isLetter, shape⟩ | ⟨high, low, highSmall, lowSmall, shape⟩
      | ⟨shape, _, _, inline⟩
  · have all : ∀ letter ∈ ['"', '\\', 'b', 't', 'n', 'f', 'r'],
        ∀ d ∈ ['\\', letter], d ≠ '\n' ∧ d ≠ '\x00' := by simp
    exact all letter isLetter d (shape ▸ member)
  · obtain ⟨_, _, highInline⟩ := hexDigit_inert highSmall
    obtain ⟨_, _, lowInline⟩ := hexDigit_inert lowSmall
    simp only [shape, List.mem_cons, List.not_mem_nil, or_false] at member
    rcases member with rfl | rfl | rfl | rfl | rfl | rfl
    · decide
    · decide
    · decide
    · decide
    · exact highInline
    · exact lowInline
  · obtain rfl := List.mem_singleton.mp (shape ▸ member)
    exact inline

theorem expression_quotedChars (text : List Char) :
    Expression (Text.quotedChars text) := by
  refine ⟨?_, ?_⟩
  · intro c member
    simp only [Text.quotedChars, List.mem_cons, List.mem_append,
      List.mem_flatMap, List.not_mem_nil, or_false] at member
    rcases member with rfl | ⟨d, _, inEscape⟩ | rfl
    · decide
    · exact inline_escape d c inEscape
    · decide
  · intro line brackets rest unquoted
    have opened :
        step line ⟨.code, brackets⟩ '"' = .ok ⟨.firstQuote '"', brackets⟩ :=
      rfl
    rw [Text.quotedChars, List.cons_append, List.append_assoc,
      List.singleton_append, readRest_cons_of_step opened]
    cases text with
    | nil =>
        have second :
            step line ⟨.firstQuote '"', brackets⟩ '"' =
              .ok ⟨.secondQuote '"', brackets⟩ :=
          rfl
        rw [List.flatMap_nil, List.nil_append, readRest_cons_of_step second]
        exact readRest_secondQuote fun c head => (unquoted c head).2
    | cons c text =>
        obtain ⟨first, others, shape, different⟩ := escape_eq_cons c
        have inside : readRest line ⟨.quoted '"', brackets⟩
            ((c :: text).flatMap Text.escape ++ '"' :: rest) =
              readRest line ⟨.code, brackets⟩ rest :=
          readRest_flatMap_escape (c :: text) rest
        rw [List.flatMap_cons, shape] at inside ⊢
        rw [List.cons_append, List.cons_append, readRest_cons] at inside ⊢
        rw [step_firstQuote different, inside]

/-- The machines differ in the numbers of lines at most. -/
def Alike (left right : Lexer) : Prop :=
  left.mode = right.mode ∧
  left.brackets.map Prod.fst = right.brackets.map Prod.fst

theorem readCode_alike (other : Nat) {twins : List (Char × Nat)} {next : Lexer}
    (same : brackets.map Prod.fst = twins.map Prod.fst)
    (read : readCode line brackets c = .ok next) :
    ∃ after, readCode other twins c = .ok after ∧ Alike next after := by
  revert read
  fun_cases readCode line brackets c with
  | case1 _ hash =>
      rintro ⟨⟩
      exact ⟨⟨.comment, twins⟩, by simp only [readCode, hash, if_true], rfl,
        same⟩
  | case2 _ noHash quote =>
      rintro ⟨⟩
      refine ⟨⟨.firstQuote c, twins⟩, ?_, rfl, same⟩
      simp only [readCode, noHash, quote, if_true]
      rfl
  | case3 _ noHash noQuote opens =>
      rintro ⟨⟩
      refine ⟨⟨.code, (c, other) :: twins⟩, ?_, rfl, by simp [same]⟩
      simp only [readCode, noHash, noQuote, opens, if_true]
      rfl
  | case4 noHash noQuote noOpening closes innermost number outer paired =>
      rintro ⟨⟩
      obtain ⟨⟨twin, twinNumber⟩, twins, rfl, rfl, sameOuter⟩ :=
        List.map_eq_cons_iff.mp same.symm
      refine ⟨⟨.code, twins⟩, ?_, rfl, sameOuter.symm⟩
      simp only [readCode, noHash, noQuote, noOpening, closes, paired, if_true]
      rfl
  | case5 => nofun
  | case6 => nofun
  | case7 => nofun
  | case8 _ noHash noQuote noOpening noClosing noControl =>
      rintro ⟨⟩
      refine ⟨⟨.code, twins⟩, ?_, rfl, same⟩
      simp only [readCode, noHash, noQuote, noOpening, noClosing, noControl]
      rfl

/-- In comments and literals a step leaves the brackets alone. -/
theorem exists_step_eq (mode : Mode) (c : Char) :
    (∀ line brackets,
      step line ⟨mode, brackets⟩ c = readCode line brackets c) ∨
      ∃ after, ∀ line brackets,
        step line ⟨mode, brackets⟩ c = .ok ⟨after, brackets⟩ := by
  cases mode with
  | code => exact .inl fun _ _ => rfl
  | comment => exact .inr ⟨.comment, fun _ _ => rfl⟩
  | firstQuote quote =>
      simp only [step]
      split
      · exact .inr ⟨_, fun _ _ => rfl⟩
      · split <;> exact .inr ⟨_, fun _ _ => rfl⟩
  | secondQuote quote =>
      simp only [step]
      split
      · exact .inr ⟨_, fun _ _ => rfl⟩
      · exact .inl fun _ _ => rfl
  | quoted quote =>
      simp only [step]
      split
      · exact .inr ⟨_, fun _ _ => rfl⟩
      · split <;> exact .inr ⟨_, fun _ _ => rfl⟩
  | escaped quote => exact .inr ⟨.quoted quote, fun _ _ => rfl⟩
  | triple quote closing =>
      simp only [step]
      split
      · exact .inr ⟨_, fun _ _ => rfl⟩
      · split
        · split <;> exact .inr ⟨_, fun _ _ => rfl⟩
        · exact .inr ⟨_, fun _ _ => rfl⟩
  | tripleEscaped quote => exact .inr ⟨.triple quote 0, fun _ _ => rfl⟩

theorem step_alike
    (other : Nat) {lexer twin next : Lexer} (alike : Alike lexer twin)
    (read : step line lexer c = .ok next) :
    ∃ after, step other twin c = .ok after ∧ Alike next after := by
  obtain ⟨mode, brackets⟩ := lexer
  obtain ⟨twinMode, twins⟩ := twin
  obtain ⟨rfl, same⟩ := alike
  rcases exists_step_eq mode c with asCode | ⟨after, inLiteral⟩
  · rw [asCode] at read ⊢
    exact readCode_alike other same read
  · rw [inLiteral] at read ⊢
    cases read
    exact ⟨_, rfl, rfl, same⟩

theorem readRest_alike
    (other : Nat) {lexer twin final : Lexer} (alike : Alike lexer twin)
    (read : readRest line lexer rest = .ok final) :
    ∃ after, readRest other twin rest = .ok after ∧ Alike final after := by
  induction rest generalizing lexer twin with
  | nil =>
      obtain ⟨mode, brackets⟩ := lexer
      obtain ⟨twinMode, twins⟩ := twin
      obtain ⟨rfl, same⟩ := alike
      change endLine line ⟨mode, brackets⟩ = .ok final at read
      change ∃ after,
        endLine other ⟨mode, twins⟩ = .ok after ∧ Alike final after
      cases mode with
      | firstQuote quote => cases read
      | quoted quote => cases read
      | escaped quote => cases read
      | _ =>
          cases read
          exact ⟨_, rfl, rfl, same⟩
  | cons c rest induction =>
      rw [readRest_cons] at read
      obtain ⟨next, stepped, later⟩ := bind_eq_ok_iff.mp read
      obtain ⟨after, steppedTwin, alikeAfter⟩ := step_alike other alike stepped
      rw [readRest_cons_of_step steppedTwin]
      exact induction alikeAfter later

/-- Whether a line can be read by itself does not depend on its number. -/
theorem readRest_of_readRest (other : Nat)
    (read : readRest line ⟨.code, []⟩ text = .ok ⟨.code, []⟩) :
    readRest other ⟨.code, []⟩ text = .ok ⟨.code, []⟩ := by
  obtain ⟨⟨mode, brackets⟩, readTwin, sameMode, same⟩ :=
    readRest_alike other ⟨rfl, rfl⟩ read
  obtain rfl : Mode.code = mode := sameMode
  obtain rfl : brackets = [] := by simpa using same.symm
  exact readTwin

end Workflow.Program.SelfCheck
