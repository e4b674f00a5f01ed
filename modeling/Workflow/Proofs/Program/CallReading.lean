import Mathlib.Data.List.Forall2
import Workflow.Proofs.Program.CallSyntax
import Workflow.Proofs.Program.Lines

/-!
# The reader of calls

A text spells a term when it is cut into the lexemes of the term wherever it
stands, and from these lexemes the machine builds the term inside of any open
brackets.  So a text that spells a call is read as that call.
-/

namespace Workflow.Program

namespace Lexeme

/-- Parts with a comma between neighbours. -/
def separated : List (List Lexeme) → List Lexeme
  | [] => []
  | [part] => part
  | part :: rest => part ++ .mark ',' :: separated rest

theorem separated_cons_cons
    (part next : List Lexeme) (rest : List (List Lexeme)) :
    separated (part :: next :: rest) =
      part ++ .mark ',' :: separated (next :: rest) :=
  rfl

theorem separated_concat (parts : List (List Lexeme)) (last : List Lexeme) :
    separated (parts ++ [last]) =
      parts.flatMap (· ++ [.mark ',']) ++ last := by
  induction parts with
  | nil => rfl
  | cons part rest induction =>
      obtain ⟨next, others, shape⟩ := List.exists_cons_of_ne_nil
        (List.append_ne_nil_of_right_ne_nil rest (List.cons_ne_nil last []))
      rw [List.cons_append, shape, separated_cons_cons, ← shape, induction,
        List.flatMap_cons]
      simp only [List.append_assoc, List.cons_append, List.nil_append]

end Lexeme

namespace Term

mutual

def lexemes : Term → List Lexeme
  | .none => [.name "None"]
  | .bool value => [.name (truth value)]
  | .integer value => [.integer value]
  | .decimal numeral => [.decimal numeral]
  | .text value => [.text value]
  | .list items =>
      .mark '[' :: (Lexeme.separated (lexemesList items) ++ [.mark ']'])
  | .dictionary entries =>
      .mark '\x7b' ::
        (Lexeme.separated (lexemesEntries entries) ++ [.mark '\x7d'])
  | .application helper arguments =>
      .name helper.name :: .mark '(' ::
        (Lexeme.separated (lexemesList arguments) ++ [.mark ')'])

def lexemesList : List Term → List (List Lexeme)
  | [] => []
  | item :: rest => lexemes item :: lexemesList rest

def lexemesEntries : List (String × Term) → List (List Lexeme)
  | [] => []
  | (key, term) :: rest =>
      (.text key :: .mark ':' :: lexemes term) :: lexemesEntries rest

end

theorem lexemesList_eq_map (items : List Term) :
    lexemesList items = items.map lexemes := by
  induction items with
  | nil => rfl
  | cons item rest induction => rw [lexemesList, induction, List.map_cons]

def entryLexemes (entry : String × Term) : List Lexeme :=
  .text entry.1 :: .mark ':' :: entry.2.lexemes

theorem lexemesEntries_eq_map (entries : List (String × Term)) :
    lexemesEntries entries = entries.map entryLexemes := by
  induction entries with
  | nil => rfl
  | cons entry rest induction =>
      rw [lexemesEntries, induction, List.map_cons, entryLexemes]

end Term

namespace Call

def argumentLexemes (argument : String × Term) : List Lexeme :=
  .name argument.1 :: .mark '=' :: argument.2.lexemes

/-- A dictionary is unpacked only if there is something in it. -/
def unpackedLexemes (entries : List (String × Term)) : List (List Lexeme) :=
  if entries.isEmpty then [] else [.stars :: (Term.dictionary entries).lexemes]

def lexemes (call : Call) : List Lexeme :=
  .name call.function :: .mark '(' ::
    (Lexeme.separated
      (call.named.map argumentLexemes ++ unpackedLexemes call.unpacked) ++
      [.mark ')'])

end Call

namespace Reading

theorem steps?_cons (state : Reading) (lexeme : Lexeme) (rest : List Lexeme) :
    steps? state (lexeme :: rest) =
      (step? state lexeme).bind fun next => steps? next rest := by
  simp [steps?]

/-- Where an expression is expected, the lexemes of the term are read as the
term. -/
def Reads (term : Term) : Prop :=
  ∀ (stack : List Frame) (rest : List Lexeme),
    steps? ⟨stack, .value⟩ (term.lexemes ++ rest) =
      (complete? term stack).bind fun next => steps? next rest

/-- Where a bracket may also end, an expression is read as elsewhere. -/
theorem Reads.valueOrEnd
    {term : Term} (reads : Reads term) (stack : List Frame)
    (rest : List Lexeme) :
    steps? ⟨stack, .valueOrEnd⟩ (term.lexemes ++ rest) =
      (complete? term stack).bind fun next => steps? next rest := by
  rw [← reads stack rest]
  cases term <;> simp [Term.lexemes, steps?_cons, step?]

/-- A kind of bracket: its frames over what has been read inside of it, what
may come where it has just been opened, and the sign that closes it. -/
structure Bracket
    {α : Type} (frame : List α → Frame) (start : Expected) (sign : Char)
    (stack : List Frame) : Prop where
  comma : ∀ done, step? ⟨frame done :: stack, .commaOrEnd⟩ (.mark ',') =
    some ⟨frame done :: stack, start⟩
  atStart : ∀ done, step? ⟨frame done :: stack, start⟩ (.mark sign) =
    close? sign (frame done :: stack)
  behindItem : ∀ done, step? ⟨frame done :: stack, .commaOrEnd⟩ (.mark sign) =
    close? sign (frame done :: stack)

section Brackets

variable {α : Type} {frame : List α → Frame} {start : Expected} {sign : Char}
  {stack : List Frame} {part : α → List Lexeme}

/-- The lexemes of an item put the item into the innermost bracket. -/
def Adds (frame : List α → Frame) (start : Expected) (stack : List Frame)
    (part : α → List Lexeme) (item : α) : Prop :=
  ∀ (done : List α) (rest : List Lexeme),
    steps? ⟨frame done :: stack, start⟩ (part item ++ rest) =
      steps? ⟨frame (item :: done) :: stack, .commaOrEnd⟩ rest

/-- Items with a comma behind each. -/
theorem steps?_followed
    (bracket : Bracket frame start sign stack) {items : List α}
    (adds : ∀ item ∈ items, Adds frame start stack part item) (done : List α)
    (rest : List Lexeme) :
    steps? ⟨frame done :: stack, start⟩
        ((items.map part).flatMap (· ++ [.mark ',']) ++ rest) =
      steps? ⟨frame (items.reverse ++ done) :: stack, start⟩ rest := by
  induction items generalizing done with
  | nil => rfl
  | cons item others induction =>
      obtain ⟨first, later⟩ := List.forall_mem_cons.mp adds
      rw [List.map_cons, List.flatMap_cons, List.append_assoc,
        List.append_assoc, first, List.singleton_append, steps?_cons,
        bracket.comma, Option.bind_some, induction later, List.reverse_cons,
        List.append_assoc, List.singleton_append]

/-- The contents of a bracket and its closing sign. -/
theorem steps?_bracket
    (bracket : Bracket frame start sign stack) {items : List α}
    (adds : ∀ item ∈ items, Adds frame start stack part item)
    (rest : List Lexeme) :
    steps? ⟨frame [] :: stack, start⟩
        (Lexeme.separated (items.map part) ++ .mark sign :: rest) =
      (close? sign (frame items.reverse :: stack)).bind fun next =>
        steps? next rest := by
  rcases List.eq_nil_or_concat items with rfl | ⟨front, last, rfl⟩
  · rw [List.map_nil, Lexeme.separated, List.nil_append, steps?_cons,
      bracket.atStart, List.reverse_nil]
  · rw [List.concat_eq_append] at adds ⊢
    have inFront : ∀ item ∈ front, Adds frame start stack part item :=
      fun item member =>
      adds item (List.mem_append_left _ member)
    have atLast := adds last (List.mem_append_right _ List.mem_cons_self)
    rw [List.map_append, List.map_singleton, Lexeme.separated_concat,
      List.append_assoc, steps?_followed bracket inFront, atLast, steps?_cons,
      bracket.behindItem, List.append_nil, List.reverse_append,
      List.reverse_singleton,
      List.singleton_append]

end Brackets

theorem bracket_list (stack : List Frame) :
    Bracket Frame.list .valueOrEnd ']' stack where
  comma _ := rfl
  atStart _ := rfl
  behindItem _ := rfl

theorem bracket_application (helper : Helper) (stack : List Frame) :
    Bracket (Frame.application helper) .valueOrEnd ')' stack where
  comma _ := rfl
  atStart _ := rfl
  behindItem _ := rfl

theorem bracket_dictionary (stack : List Frame) :
    Bracket Frame.dictionary .keyOrEnd '\x7d' stack where
  comma _ := rfl
  atStart _ := rfl
  behindItem _ := rfl

theorem bracket_call (function : String) :
    Bracket (Frame.call function) .argumentOrEnd ')' [] where
  comma _ := rfl
  atStart _ := rfl
  behindItem _ := rfl

theorem Reads.adds_list
    {item : Term} (reads : Reads item) (stack : List Frame) :
    Adds Frame.list .valueOrEnd stack Term.lexemes item := by
  intro done rest
  rw [reads.valueOrEnd, complete?, Option.bind_some]

theorem Reads.adds_application
    {item : Term} (reads : Reads item) (helper : Helper) (stack : List Frame) :
    Adds (Frame.application helper) .valueOrEnd stack Term.lexemes item := by
  intro done rest
  rw [reads.valueOrEnd, complete?, Option.bind_some]

theorem Reads.adds_dictionary
    {entry : String × Term} (reads : Reads entry.2) (stack : List Frame) :
    Adds Frame.dictionary .keyOrEnd stack Term.entryLexemes entry := by
  intro done rest
  rw [Term.entryLexemes, List.cons_append, List.cons_append, steps?_cons]
  simp only [step?, Option.bind_some, steps?_cons, if_true]
  rw [reads, complete?, Option.bind_some]

theorem Reads.adds_call {argument : String × Term} (reads : Reads argument.2)
    (named : isArgumentName argument.1 = true) (function : String) :
    Adds (Frame.call function) .argumentOrEnd [] Call.argumentLexemes
      argument := by
  intro done rest
  rw [Call.argumentLexemes, List.cons_append, List.cons_append, steps?_cons]
  simp only [step?, named, Option.bind_some, steps?_cons, if_true]
  rw [reads, complete?, Option.bind_some]

theorem constant?_helper (helper : Helper) : constant? helper.name = none := by
  cases helper <;> simp [constant?, Helper.name]

theorem ofName?_name (helper : Helper) :
    Helper.ofName? helper.name = some helper := by
  cases helper <;> simp [Helper.ofName?, Helper.name]

mutual

/-- Terms are read wherever an expression is expected. -/
theorem reads (term : Term) : Reads term := by
  intro stack rest
  match term with
  | .none => simp [Term.lexemes, steps?_cons, step?, begin?, constant?]
  | .bool value =>
      cases value <;>
        simp [Term.lexemes, truth, steps?_cons, step?, begin?, constant?]
  | .integer value => simp [Term.lexemes, steps?_cons, step?, begin?]
  | .decimal numeral => simp [Term.lexemes, steps?_cons, step?, begin?]
  | .text value => simp [Term.lexemes, steps?_cons, step?, begin?]
  | .list items =>
      have adds : ∀ item ∈ items,
          Adds Frame.list .valueOrEnd stack Term.lexemes item :=
        fun item member => (readsList items item member).adds_list stack
      have inside := steps?_bracket (bracket_list stack) adds rest
      rw [Term.lexemes, Term.lexemesList_eq_map, List.cons_append,
        List.append_assoc, List.singleton_append, steps?_cons]
      simp only [step?, begin?, Option.bind_some]
      rw [inside, close?, List.reverse_reverse]
  | .dictionary entries =>
      have adds : ∀ entry ∈ entries,
          Adds Frame.dictionary .keyOrEnd stack Term.entryLexemes entry :=
        fun entry member =>
          (readsEntries entries entry member).adds_dictionary stack
      have inside := steps?_bracket (bracket_dictionary stack) adds rest
      rw [Term.lexemes, Term.lexemesEntries_eq_map, List.cons_append,
        List.append_assoc, List.singleton_append, steps?_cons]
      simp only [step?, begin?, Option.bind_some]
      rw [inside, close?, List.reverse_reverse]
  | .application helper arguments =>
      have adds : ∀ item ∈ arguments,
          Adds (Frame.application helper) .valueOrEnd stack Term.lexemes
            item :=
        fun item member =>
          (readsList arguments item member).adds_application helper stack
      have inside :=
        steps?_bracket (bracket_application helper stack) adds rest
      rw [Term.lexemes, Term.lexemesList_eq_map, List.cons_append,
        List.cons_append, List.append_assoc, List.singleton_append,
        steps?_cons]
      simp only [step?, begin?, constant?_helper, ofName?_name,
        Option.map_some, Option.bind_some, steps?_cons, if_true]
      rw [inside, close?, List.reverse_reverse]

theorem readsList (items : List Term) : ∀ item ∈ items, Reads item := by
  match items with
  | [] => simp
  | item :: rest => exact List.forall_mem_cons.mpr ⟨reads item, readsList rest⟩

theorem readsEntries (entries : List (String × Term)) :
    ∀ entry ∈ entries, Reads entry.2 := by
  match entries with
  | [] => simp
  | (_, term) :: rest =>
      exact List.forall_mem_cons.mpr ⟨reads term, readsEntries rest⟩

end

end Reading

/-- A call is built from its lexemes. -/
theorem Call.ofLexemes?_lexemes
    {call : Call}
    (named : ∀ argument ∈ call.named,
      Reading.isArgumentName argument.1 = true) :
    ofLexemes? call.lexemes = some call := by
  obtain ⟨function, arguments, unpacked⟩ := call
  have adds : ∀ argument ∈ arguments,
      Reading.Adds (Frame.call function) .argumentOrEnd [] argumentLexemes
        argument :=
    fun argument member =>
      (Reading.reads argument.2).adds_call (named argument member) function
  have bracket := Reading.bracket_call function
  by_cases empty : unpacked = []
  · subst empty
    have inside := Reading.steps?_bracket bracket adds []
    simp only [unpackedLexemes, lexemes, ofLexemes?, List.isEmpty_nil, if_true,
      List.append_nil]
    rw [inside, Reading.close?, List.reverse_reverse]
    rfl
  · have unpack :=
      Reading.reads (.dictionary unpacked)
        [.unpacking function arguments.reverse] [.mark ')']
    have notEmpty : unpacked.isEmpty = false := by simpa using empty
    simp only [unpackedLexemes, lexemes, ofLexemes?, notEmpty,
      Bool.false_eq_true, if_false]
    rw [Lexeme.separated_concat, List.append_assoc,
      Reading.steps?_followed bracket adds, List.append_nil, List.cons_append,
      Reading.steps?_cons]
    simp only [Reading.step?, Option.bind_some]
    rw [unpack, Reading.complete?, List.reverse_reverse]
    rfl

namespace Lexeme

/-- A printed character stands for itself. -/
theorem unescape?_cons
    (reversed : List Char) {c : Char} (rest : List Char) (noQuote : c ≠ '"')
    (noBackslash : c ≠ '\\') (printed : ¬ c.toNat < 0x20) :
    unescape? reversed (c :: rest) = unescape? (c :: reversed) rest := by
  have noBreak : ¬ (c = '\n' ∨ c = '\r') := by
    rintro (rfl | rfl) <;> exact printed (by decide)
  rw [unescape?.eq_def]
  split
  · rename_i shape
    cases shape
  · rename_i shape
    exact absurd (List.cons.inj shape).1 noQuote
  · rename_i shape
    exact absurd (List.cons.inj shape).1 noBackslash
  · rename_i shape
    exact absurd (List.cons.inj shape).1 noBackslash
  · rename_i shape
    obtain ⟨rfl, rfl⟩ := List.cons.inj shape
    rw [if_neg noBreak]

theorem hexValue4?_control {code : Nat} (small : code < 0x20) :
    Token.hexValue4? '0' '0' (Text.hexDigit (code / 16))
      (Text.hexDigit (code % 16)) =
      some code := by
  have high : Token.hexValue? (Text.hexDigit (code / 16)) = some (code / 16) :=
    Token.hexValue?_hexDigit (by omega)
  have low : Token.hexValue? (Text.hexDigit (code % 16)) = some (code % 16) :=
    Token.hexValue?_hexDigit (by omega)
  have zero : Token.hexValue? '0' = some 0 := rfl
  simp only [Token.hexValue4?, high, low, zero, Option.bind_eq_bind,
    Option.bind_some, Option.pure_def, Option.some.injEq]
  omega

/-- A character is read from the way it is written between quotes. -/
theorem unescape?_escape (reversed : List Char) (c : Char) (rest : List Char) :
    unescape? reversed (Text.escape c ++ rest) =
      unescape? (c :: reversed) rest := by
  unfold Text.escape
  iterate 7 (split; subst_vars; rfl)
  split
  · rename_i control
    have valid : c.toNat.isValidChar := c.valid
    simp only [List.cons_append, List.nil_append, unescape?,
      hexValue4?_control control, valid, if_true, Char.ofNat_toNat]
  · rename_i printed
    exact unescape?_cons reversed rest ‹¬c = '"'› ‹¬c = '\\'› printed

theorem unescape?_flatMap_escape
    (text rest : List Char) (reversed : List Char) :
    unescape? reversed (text.flatMap Text.escape ++ '"' :: rest) =
      some (reversed.reverse ++ text, rest) := by
  induction text generalizing reversed with
  | nil => simp [unescape?]
  | cons c text induction =>
      rw [List.flatMap_cons, List.append_assoc, unescape?_escape, induction]
      simp

/-- What follows a name or a number does not go on with it. -/
def Apart (rest : List Char) : Prop :=
  ∀ c ∈ rest.head?, isMark c = true

/-- The text is cut into these lexemes, whatever has been found in front of
it. -/
def Lexes (text : List Char) (lexemes : List Lexeme) : Prop :=
  ∀ (found : List Lexeme) {rest : List Char}, Apart rest →
    lexFrom? found (text ++ rest) = lexFrom? (lexemes.reverse ++ found) rest

theorem apart_nil : Apart [] := by
  simp [Apart]

theorem apart_cons {c : Char} (mark : isMark c = true) (rest : List Char) :
    Apart (c :: rest) := by
  simpa [Apart] using mark

section Kinds

variable {kind : Char → Bool} (noMark : marks.any kind = false)

include noMark

theorem not_of_isMark {c : Char} (mark : isMark c = true) :
    kind c = false := by
  have member : c ∈ marks := by simpa [isMark] using mark
  simpa using List.any_eq_false.mp noMark c member

theorem not_isMark {c : Char} (isKind : kind c = true) : isMark c = false := by
  by_contra mark
  rw [not_of_isMark noMark (by simpa using mark)] at isKind
  cases isKind

/-- A run of characters of one kind ends where a mark follows. -/
theorem span_append {run rest : List Char} (inRun : ∀ c ∈ run, kind c = true)
    (apart : Apart rest) :
    (run ++ rest).takeWhile kind = run ∧
    (run ++ rest).dropWhile kind = rest := by
  rw [List.takeWhile_append_of_pos inRun, List.dropWhile_append_of_pos inRun]
  cases rest with
  | nil => simp
  | cons c rest => simp [not_of_isMark noMark (apart c rfl)]

end Kinds

theorem lexFrom?_mark
    {c : Char} (mark : isMark c = true) (found : List Lexeme)
    (rest : List Char) :
    lexFrom? found (c :: rest) = lexFrom? (.mark c :: found) rest := by
  rw [lexFrom?]
  · rw [if_pos mark]
  all_goals
    intros
    subst c
    exact absurd mark (by decide)

theorem lexFrom?_quoted
    (found : List Lexeme) (text : String) (rest : List Char) :
    lexFrom? found ((Text.quoted text).toList ++ rest) =
      lexFrom? (.text text :: found) rest := by
  have inside := unescape?_flatMap_escape text.toList rest []
  rw [Text.quoted, String.toList_ofList, Text.quotedChars, List.cons_append,
    List.append_assoc, List.singleton_append, lexFrom?]
  split
  · rename_i read after equation
    obtain ⟨rfl, rfl⟩ : text.toList = read ∧ rest = after := by
      simpa [inside] using equation
    rw [String.ofList_toList]
  · rename_i equation
    simp [inside] at equation

theorem lexes_quoted (text : String) :
    Lexes (Text.quoted text).toList [.text text] := by
  intro found rest _
  exact lexFrom?_quoted found text rest

theorem not_isNameStart_of_number
    {first : Char} (start : (first.isDigit || first == '-') = true) :
    isNameStart first = false := by
  have range : 48 ≤ first.toNat ∧ first.toNat ≤ 57 ∨ first = '-' := by
    simpa [Char.isDigit_iff_toNat] using start
  rcases range with digit | rfl
  · by_contra name
    simp only [isNameStart, Bool.not_eq_false, Bool.or_eq_true, beq_iff_eq,
      Text.isAlpha_iff_toNat] at name
    rcases name with letter | rfl
    · omega
    · simp at digit
  · rfl

theorem lexes_numeral {first : Char} {digits : List Char}
    (start : (first.isDigit || first == '-') = true)
    (numberChars : ∀ c ∈ digits, Token.isNumberChar c = true) :
    Lexes (first :: digits) [ofNumeral (first :: digits)] := by
  intro found rest apart
  obtain ⟨taken, dropped⟩ := span_append (by decide) numberChars apart
  have noMark : isMark first = false :=
    @not_isMark (fun c => c.isDigit || c == '-') (by decide) first start
  have noName := not_isNameStart_of_number start
  rw [List.cons_append, lexFrom?]
  · simp only [noMark, noName, start, Bool.false_eq_true, if_false, if_true,
      taken, dropped]
    rfl
  all_goals
    intros
    subst first
    exact absurd start (by decide)

theorem ofNumeral_of_isWhole
    {digits : List Char} (whole : Number.isWhole digits = true) :
    ofNumeral digits = .integer (Number.ofDigits digits) := by
  cases digits with
  | nil => cases whole
  | cons first rest =>
      have noSign : first ≠ '-' := by
        rintro rfl
        simp [Number.isWhole] at whole
      simp [ofNumeral, noSign, whole]

/-- Digits without a zero in front of others are an integer. -/
theorem lexes_digits
    {digits : List Char} (whole : Number.isWhole digits = true) :
    Lexes digits [.integer (Number.ofDigits digits)] := by
  rw [← ofNumeral_of_isWhole whole]
  cases digits with
  | nil => cases whole
  | cons first rest =>
      have allDigits : ∀ c ∈ first :: rest, c.isDigit = true := by
        simp only [Number.isWhole, Bool.and_eq_true] at whole
        exact List.all_eq_true.mp whole.1.2
      obtain ⟨digit, others⟩ := List.forall_mem_cons.mp allDigits
      apply lexes_numeral (by simp [digit])
      intro c member
      exact Number.isNumberChar_of_isDigit (others c member)

theorem ofNumeral_integerChars (value : Int) :
    ofNumeral (Number.integerChars value) = .integer value := by
  unfold Number.integerChars
  by_cases negative : value < 0
  · have same : -(value.natAbs : Int) = value := by omega
    simp only [negative, if_true, ofNumeral, Number.isWhole_toDigits,
      Number.ofDigits_toDigits, same]
  · have same : (value.natAbs : Int) = value := by omega
    rw [if_neg negative, ofNumeral_of_isWhole (Number.isWhole_toDigits _),
      Number.ofDigits_toDigits, same]

/-- A decimal that is written out has a point or an exponent. -/
theorem exists_not_isDigit_decimalChars (decimal : Decimal) :
    ∃ c ∈ Number.decimalChars decimal, c.isDigit = false := by
  simp only [Number.decimalChars]
  split
  · exact ⟨'.', by simp, rfl⟩
  · split
    · exact ⟨'.', by simp, rfl⟩
    · split
      · exact ⟨'.', by simp, rfl⟩
      · exact ⟨'e', by simp, rfl⟩

theorem isWhole_decimalChars (decimal : Decimal) :
    Number.isWhole (Number.decimalChars decimal) = false := by
  obtain ⟨c, member, other⟩ := exists_not_isDigit_decimalChars decimal
  have notAll : (Number.decimalChars decimal).all Char.isDigit = false := by
    rw [List.all_eq_false]
    exact ⟨c, member, by simp [other]⟩
  simp [Number.isWhole, notAll]

theorem ofNumeral_double (value : Double) :
    ofNumeral (Number.double value).chars =
      .decimal (Number.double value).render := by
  have fraction := isWhole_decimalChars value.shortest
  have unsigned : ofNumeral (Number.decimalChars value.shortest) =
      .decimal (String.ofList (Number.decimalChars value.shortest)) := by
    obtain ⟨first, rest, shape, digit, _⟩ :=
      Number.startsWithDigit_decimalChars value.shortest
    have noSign : first ≠ '-' := by
      rintro rfl
      exact absurd digit (by decide)
    rw [shape] at fraction ⊢
    simp [ofNumeral, noSign, fraction]
  have signed : ofNumeral ('-' :: Number.decimalChars value.shortest) =
      .decimal
        (String.ofList ('-' :: Number.decimalChars value.shortest)) := by
    simp [ofNumeral, fraction]
  rw [Number.render, Number.chars]
  split
  · exact signed
  · exact unsigned

theorem lexes_number (value : Number) :
    Lexes value.render.toList [ofNumeral value.chars] := by
  obtain ⟨first, digits, shape, start, numberChars⟩ := value.chars_eq_cons
  rw [Number.render, String.toList_ofList, shape]
  exact lexes_numeral start numberChars

/-- Texts that are one name. -/
def isName (text : String) : Bool :=
  match text.toList with
  | [] => false
  | first :: parts => isNameStart first && parts.all isNamePart

theorem lexes_name {text : String} (named : isName text = true) :
    Lexes text.toList [.name text] := by
  intro found rest apart
  unfold isName at named
  split at named
  · cases named
  · rename_i first parts shape
    obtain ⟨start, isPart⟩ := Bool.and_eq_true_iff.mp named
    obtain ⟨taken, dropped⟩ :=
      span_append (by decide) (List.all_eq_true.mp isPart) apart
    have noMark := not_isMark (by decide) start
    have same : String.ofList (first :: parts) = text := by
      rw [← shape, String.ofList_toList]
    rw [shape, List.cons_append, lexFrom?]
    · simp only [noMark, start, Bool.false_eq_true, if_false, if_true, taken,
        dropped, same]
      rfl
    all_goals
      intros
      subst first
      exact absurd start (by decide)

theorem Lexes.append
    {left right : List Char} {ofLeft ofRight : List Lexeme}
    (first : Lexes left ofLeft) (second : Lexes right ofRight)
    (apart : Apart right) (notEmpty : right ≠ []) :
    Lexes (left ++ right) (ofLeft ++ ofRight) := by
  intro found rest apartRest
  have apartBoth : Apart (right ++ rest) := by
    rwa [Apart, List.head?_append_of_ne_nil _ notEmpty]
  rw [List.append_assoc, first found apartBoth, second _ apartRest,
    List.reverse_append, List.append_assoc]

theorem Lexes.mark_cons {c : Char} (mark : isMark c = true) {text : List Char}
    {lexemes : List Lexeme} (lexes : Lexes text lexemes) :
    Lexes (c :: text) (.mark c :: lexemes) := by
  intro found rest apart
  rw [List.cons_append, lexFrom?_mark mark, lexes _ apart, List.reverse_cons,
    List.append_assoc, List.singleton_append]

theorem Lexes.blank_cons
    {text : List Char} {lexemes : List Lexeme} (lexes : Lexes text lexemes) :
    Lexes (' ' :: text) lexemes := by
  intro found rest apart
  rw [List.cons_append, lexFrom?, lexes _ apart]

theorem Lexes.stars_cons
    {text : List Char} {lexemes : List Lexeme} (lexes : Lexes text lexemes) :
    Lexes ('*' :: '*' :: text) (.stars :: lexemes) := by
  intro found rest apart
  rw [List.cons_append, List.cons_append, lexFrom?, lexes _ apart,
    List.reverse_cons, List.append_assoc, List.singleton_append]

theorem lexes_nil : Lexes [] [] := by
  intro found rest _
  rfl

/-- A text in brackets. -/
theorem Lexes.enclosed
    {opening closing : Char} {text : List Char} {lexemes : List Lexeme}
    (lexes : Lexes text lexemes) (opens : isMark opening = true)
    (closes : isMark closing = true) :
    Lexes (opening :: (text ++ [closing]))
      (.mark opening :: (lexemes ++ [.mark closing])) :=
  (lexes.append (lexes_nil.mark_cons closes) (apart_cons closes [])
    (by simp)).mark_cons opens

theorem lexes_commaSeparated
    {texts : List String} {parts : List (List Lexeme)}
    (each :
      List.Forall₂ (fun text part => Lexes text.toList part) texts parts) :
    Lexes (Text.commaSeparated texts).toList (separated parts) := by
  unfold Text.commaSeparated
  induction each with
  | nil => exact lexes_nil
  | cons first others induction =>
      cases others with
      | nil => exact first
      | cons second others =>
          rw [Text.joined, String.toList_append, String.toList_append,
            List.append_assoc, separated_cons_cons]
          · have comma : isMark ',' = true := rfl
            exact first.append (induction.blank_cons.mark_cons comma)
              (apart_cons comma _) (by simp)
          · simp

end Lexeme

open Lexeme

/-- The text is cut into the lexemes of the term. -/
def Spells (text : String) (term : Term) : Prop :=
  Lexes text.toList term.lexemes

/-- The text is cut into the lexemes of the entry of a dictionary. -/
def SpellsEntry (text : String) (entry : String × Term) : Prop :=
  Lexes text.toList (Term.entryLexemes entry)

/-- How a number is read. -/
def Term.ofNumber : Number → Term
  | .integer value => .integer value
  | .double value => .decimal (Number.double value).render

theorem spells_none : Spells "None" .none :=
  lexes_name (by decide)

theorem spells_truth (value : Bool) : Spells (truth value) (.bool value) := by
  cases value with
  | false => exact lexes_name (by decide)
  | true => exact lexes_name (by decide)

theorem spells_number (value : Number) :
    Spells value.render (Term.ofNumber value) := by
  have lexes := lexes_number value
  cases value with
  | integer value =>
      rw [Number.chars, ofNumeral_integerChars] at lexes
      exact lexes
  | double value =>
      rw [ofNumeral_double] at lexes
      exact lexes

theorem spells_quoted (text : String) :
    Spells (Text.quoted text) (.text text) :=
  lexes_quoted text

theorem lexes_terms {texts : List String} {terms : List Term}
    (each : List.Forall₂ Spells texts terms) :
    Lexes (Text.commaSeparated texts).toList
      (Lexeme.separated (Term.lexemesList terms)) := by
  rw [Term.lexemesList_eq_map]
  exact lexes_commaSeparated (List.forall₂_map_right_iff.mpr each)

theorem spells_list
    {texts : List String} {terms : List Term}
    (each : List.Forall₂ Spells texts terms) :
    Spells (listExpression texts) (.list terms) := by
  have shape : (listExpression texts).toList =
      '[' :: ((Text.commaSeparated texts).toList ++ [']']) := by
    simp [listExpression]
  rw [Spells, shape, Term.lexemes]
  exact (lexes_terms each).enclosed rfl rfl

theorem spells_application
    (helper : Helper) {text : String} {texts : List String} {terms : List Term}
    (each : List.Forall₂ Spells texts terms)
    (shape : text.toList =
      helper.name.toList ++ '(' ::
        ((Text.commaSeparated texts).toList ++ [')'])) :
    Spells text (.application helper terms) := by
  have named : isName helper.name = true := by cases helper <;> decide
  rw [Spells, shape, Term.lexemes]
  exact (lexes_name named).append ((lexes_terms each).enclosed rfl rfl)
    (apart_cons rfl _) (by simp)

theorem spellsEntry
    {key text : String} {term : Term} (spells : Spells text term) :
    SpellsEntry (entry key text) (key, term) := by
  have shape : (entry key text).toList =
      (Text.quoted key).toList ++ ':' :: ' ' :: text.toList := by
    simp [entry]
  have colon : isMark ':' = true := rfl
  rw [SpellsEntry, shape]
  exact (lexes_quoted key).append (spells.blank_cons.mark_cons colon)
    (apart_cons colon _) (by simp)

theorem spells_dictionary
    {texts : List String} {entries : List (String × Term)}
    (each : List.Forall₂ SpellsEntry texts entries) :
    Spells (dictionaryExpression texts) (.dictionary entries) := by
  have shape : (dictionaryExpression texts).toList =
      '\x7b' :: ((Text.commaSeparated texts).toList ++ ['\x7d']) := by
    simp [dictionaryExpression]
  have inside : Lexes (Text.commaSeparated texts).toList
      (Lexeme.separated (Term.lexemesEntries entries)) := by
    rw [Term.lexemesEntries_eq_map]
    exact lexes_commaSeparated (List.forall₂_map_right_iff.mpr each)
  rw [Spells, shape, Term.lexemes]
  exact inside.enclosed rfl rfl

theorem isStart_of_isIdentifier
    {name : String} (identifier : isIdentifier name = true) :
    ∃ first parts,
      name.toList = first :: parts ∧ Identifier.isStart first = true := by
  have valid : Identifier.problem? name = none :=
    Option.isNone_iff_eq_none.mp identifier
  unfold Identifier.problem? at valid
  split at valid
  · cases valid
  · rename_i first parts shape
    refine ⟨first, parts, shape, ?_⟩
    by_contra other
    rw [if_neg other] at valid
    split at valid <;> cases valid

theorem isNameStart_of_isStart
    {c : Char} (start : Identifier.isStart c = true) :
    isNameStart c = true := by
  have alpha : c.isAlpha = (c.isUpper || c.isLower) := rfl
  rw [isNameStart, alpha, Bool.or_assoc, ← Identifier.isStart, start,
    Bool.or_true]

theorem isNamePart_of_isFieldChar
    {c : Char} (part : Reference.isFieldChar c = true) :
    isNamePart c = true := by
  rw [isNamePart, ← Reference.isFieldChar, part, Bool.true_or]

theorem isName_of_isIdentifier
    {name : String} (identifier : isIdentifier name = true) :
    isName name = true := by
  obtain ⟨first, parts, shape, start⟩ := isStart_of_isIdentifier identifier
  rw [isName, shape, Bool.and_eq_true]
  refine ⟨isNameStart_of_isStart start, List.all_eq_true.mpr ?_⟩
  intro c member
  exact isNamePart_of_isFieldChar
    (isFieldChar_of_isIdentifier identifier
      (shape ▸ List.mem_cons_of_mem first member))

/-- The names of constants start with a capital letter. -/
theorem constant?_of_isIdentifier
    {name : String} (identifier : isIdentifier name = true) :
    Reading.constant? name = none := by
  have different :
      ∀ other : String, isIdentifier other = false → name ≠ other := by
    rintro other noIdentifier rfl
    rw [identifier] at noIdentifier
    cases noIdentifier
  rw [Reading.constant?, if_neg (different "None" (by decide)),
    if_neg (different "True" (by decide)),
    if_neg (different "False" (by decide))]

theorem isArgumentName_of_isIdentifier
    {name : String} (identifier : isIdentifier name = true)
    (free : isKeyword name = false) :
    Reading.isArgumentName name = true := by
  have noDot : name.toList.contains '.' = false := by
    by_contra dot
    have member : '.' ∈ name.toList := by simpa using dot
    exact absurd (isFieldChar_of_isIdentifier identifier member) (by decide)
  rw [Reading.isArgumentName, noDot, free,
    constant?_of_isIdentifier identifier]
  rfl

/-- A written argument stands for an argument of the same name. -/
structure SpellsArgument
    (written : String × String) (argument : String × Term) : Prop where
  name : written.1 = argument.1
  identifier : isIdentifier argument.1 = true
  spells : Spells written.2 argument.2

theorem SpellsArgument.lexes
    {written : String × String} {argument : String × Term}
    (spelled : SpellsArgument written argument) :
    Lexes (written.1 ++ "=" ++ written.2).toList
      (Call.argumentLexemes argument) := by
  have shape : (written.1 ++ "=" ++ written.2).toList =
      argument.1.toList ++ '=' :: written.2.toList := by simp [spelled.name]
  have equals : isMark '=' = true := rfl
  rw [shape]
  exact (lexes_name (isName_of_isIdentifier spelled.identifier)).append
    (spelled.spells.mark_cons equals) (apart_cons equals _) (by simp)

section Arguments

variable {expressions : List (String × String)} {given : List (String × Term)}
  (each : List.Forall₂ SpellsArgument expressions given)

include each

theorem isIdentifier_of_spelled :
    ∀ argument ∈ given, isIdentifier argument.1 = true := by
  induction each with
  | nil => simp
  | cons spelled others induction =>
      exact List.forall_mem_cons.mpr ⟨spelled.identifier, induction⟩

theorem forall₂_filter (kind : String → Bool) :
    List.Forall₂ SpellsArgument (expressions.filter (kind ·.1))
      (given.filter (kind ·.1)) := by
  apply List.rel_filter _ each
  intro written argument spelled
  simp only [spelled.name]

/-- Arguments under a keyword are written as one dictionary, if there are
any. -/
theorem forall₂_lexes_unpacked :
    List.Forall₂ (fun text part => Lexes text.toList part)
      (if expressions.isEmpty then []
      else ["**" ++
        dictionaryExpression
          (expressions.map fun written => entry written.1 written.2)])
      (Call.unpackedLexemes given) := by
  have entries : List.Forall₂ SpellsEntry
      (expressions.map fun written => entry written.1 written.2) given := by
    apply List.forall₂_map_left_iff.mpr
    apply each.imp
    intro written argument spelled
    rw [spelled.name]
    exact spellsEntry spelled.spells
  cases each with
  | nil => exact .nil
  | cons spelled others =>
      have shape : ∀ text : String,
          ("**" ++ text).toList = '*' :: '*' :: text.toList := by simp
      refine .cons ?_ .nil
      rw [shape]
      exact (spells_dictionary entries).stars_cons

theorem forall₂_lexes_arguments :
    List.Forall₂ (fun text part => Lexes text.toList part)
      (arguments expressions)
      ((given.filter (!isKeyword ·.1)).map Call.argumentLexemes ++
        Call.unpackedLexemes (given.filter (isKeyword ·.1))) := by
  simp only [arguments, List.partition_eq_filter_filter]
  apply List.rel_append
  · apply List.forall₂_map_left_iff.mpr
    apply List.forall₂_map_right_iff.mpr
    apply (forall₂_filter each (!isKeyword ·)).imp
    intro written argument spelled
    exact spelled.lexes
  · exact forall₂_lexes_unpacked (forall₂_filter each isKeyword)

/-- What is written as a call of a function is read as that call: arguments
under a keyword are in the unpacked dictionary, the others are named, each of
both in the order that was given. -/
theorem Call.read?_written
    {function : String} (named : isName function = true) :
    read?
      (function ++ "(" ++ Text.commaSeparated (arguments expressions) ++ ")") =
      some ⟨function, given.filter (!isKeyword ·.1),
        given.filter (isKeyword ·.1)⟩ := by
  have inside := lexes_commaSeparated (forall₂_lexes_arguments each)
  have shape :
      (function ++ "(" ++ Text.commaSeparated (arguments expressions) ++
        ")").toList =
        function.toList ++ '(' ::
          ((Text.commaSeparated (arguments expressions)).toList ++ [')']) := by
    simp
  have opens : isMark '(' = true := rfl
  have closes : isMark ')' = true := rfl
  have whole :=
    (lexes_name named).append (inside.enclosed opens closes)
      (apart_cons opens _) (by simp) [] apart_nil
  rw [List.append_nil, List.append_nil, lexFrom?,
    List.reverse_reverse] at whole
  have free : ∀ argument ∈ given.filter (!isKeyword ·.1),
      Reading.isArgumentName argument.1 = true := by
    intro argument member
    obtain ⟨isGiven, free⟩ := List.mem_filter.mp member
    exact isArgumentName_of_isIdentifier
      (isIdentifier_of_spelled each argument isGiven) (by simpa using free)
  rw [read?, shape, whole, Option.bind_some]
  exact @ofLexemes?_lexemes
    ⟨function, given.filter (!isKeyword ·.1), given.filter (isKeyword ·.1)⟩
      free

end Arguments

end Workflow.Program
