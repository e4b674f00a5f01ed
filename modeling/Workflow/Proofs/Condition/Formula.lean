import Mathlib.Data.List.TakeWhile
import Workflow.Proofs.Condition.Denial
import Workflow.Proofs.Condition.Exposure
import Workflow.Proofs.Document.Reading

/-!
# Legitimate conditions

The conditions that people write: references, numbers, literals and constants,
put together with comparisons, logical operators, calls of pure functions,
lists and parentheses to any depth.  Such a formula is accepted as it is
printed, as soon as there is an operator in it and none of its references and
literals, taken alone, is on the deny-list.

The checks look at the flat text, so a contract says what each of them needs to
know about a part of it (`Legit`), in front of any text that may follow.  The
contract holds of every word and sign and is kept when parts are put together.
-/

namespace Workflow.Condition

open Text Scan

/-- A number without sign, point or exponent. -/
structure Digits where
  chars : List Char
  notEmpty : chars ≠ []
  isDigit : ∀ c ∈ chars, c.isDigit = true

/-- A string literal that needs no escapes and holds no signs of references. -/
structure Literal where
  quote : Char
  content : List Char
  isQuote : quote = '\'' ∨ quote = '"'
  plain : ∀ c ∈ content,
      c ≠ quote ∧ c ≠ '\\' ∧ isReserved c = false ∧ isControl c = false

def Literal.chars (literal : Literal) : List Char :=
  literal.quote :: (literal.content ++ [literal.quote])

/-- Values with a name of their own. -/
def constants : List String :=
  ["True", "False", "None"]

/-- The pure functions that a condition may call. -/
def builtins : List String :=
  ["len", "str", "int", "float", "bool", "abs", "min", "max", "round", "sum",
    "any", "all", "sorted"]

/-- Operators between two formulas. -/
inductive Operator where
  | comparison (symbol : String) (known : symbol ∈ comparisons)
  | word (name : String) (known : name ∈ ["in", "is", "and", "or"])
  | notIn

def Operator.text : Operator → String
  | .comparison symbol _ => symbol
  | .word name _ => name
  | .notIn => "not in"

inductive Formula where
  | reference (target : Reference) (wellFormed : target.WellFormed)
  | number (digits : Digits)
  | decimal (whole fraction : Digits)
  | quoted (literal : Literal)
  | constant (name : String) (known : name ∈ constants)
  | call (function : String) (known : function ∈ builtins)
      (arguments : List Formula)
  | list (items : List Formula)
  | group (inner : Formula)
  | negation (inner : Formula)
  | binary (operator : Operator) (left right : Formula)

namespace Formula

section

variable (gap : Nat) (write : Reference → List Char)

mutual

/-- How a formula is printed, given how references are written and how many
blanks follow a comma. -/
def spell : Formula → List Char
  | .reference target _ => write target
  | .number digits => digits.chars
  | .decimal whole fraction => whole.chars ++ '.' :: fraction.chars
  | .quoted literal => literal.chars
  | .constant name _ => name.toList
  | .call function _ arguments =>
      function.toList ++ '(' :: (spellList arguments ++ [')'])
  | .list items => '[' :: (spellList items ++ [']'])
  | .group inner => '(' :: (spell inner ++ [')'])
  | .negation inner => "not".toList ++ ' ' :: spell inner
  | .binary operator left right =>
      spell left ++ ' ' :: (operator.text.toList ++ ' ' :: spell right)

def spellList : List Formula → List Char
  | [] => []
  | [item] => spell item
  | item :: next :: rest =>
      spell item ++ ',' :: (List.replicate gap ' ' ++ spellList (next :: rest))

end

end

/-- A formula as it is printed. -/
def text (gap : Nat) (formula : Formula) : String :=
  String.ofList (formula.spell gap Reference.chars)

mutual

/-- Whether there is an operator in a formula. -/
def asks : Formula → Bool
  | .call _ _ arguments => asksList arguments
  | .list items => asksList items
  | .group inner => asks inner
  | .negation _ => true
  | .binary _ _ _ => true
  | _ => false

def asksList : List Formula → Bool
  | [] => false
  | item :: rest => asks item || asksList rest

end

mutual

/-- The references and literals of a formula, with their braces and quotes. -/
def operands : Formula → List (List Char)
  | .reference target _ => [target.chars]
  | .quoted literal => [literal.chars]
  | .call _ _ arguments => operandsList arguments
  | .list items => operandsList items
  | .group inner => operands inner
  | .negation inner => operands inner
  | .binary _ left right => operands left ++ operands right
  | _ => []

def operandsList : List Formula → List (List Char)
  | [] => []
  | item :: rest => operands item ++ operandsList rest

end

end Formula

section

variable (replacement : Reference → List Char)

theorem substitute_append {text : List Char} (noBrace : ∀ c ∈ text, c ≠ '\x7b')
    (rest : List Char) :
    Template.substitute replacement (text ++ rest) =
      text ++ Template.substitute replacement rest := by
  induction text with
  | nil => rfl
  | cons c text induction =>
      obtain ⟨here, later⟩ := List.forall_mem_cons.mp noBrace
      have notFound := Reference.match?_cons_of_ne here (text ++ rest)
      rw [List.cons_append, List.cons_append, ← induction later,
        Template.substitute, Template.atoms_cons_of_no_match notFound,
        List.flatMap_cons]
      rfl

theorem substitute_reference
    {target : Reference} (wellFormed : target.WellFormed) (rest : List Char) :
    Template.substitute replacement (target.chars ++ rest) =
      replacement target ++ Template.substitute replacement rest := by
  rw [Template.substitute, Template.atoms_chars_append wellFormed,
    List.flatMap_cons]
  rfl

end

theorem occursIn_iff_infix {part text : List Char} :
    occursIn part text = true ↔ part <:+: text := by
  induction text with
  | nil => simp [occursIn]
  | cons c text induction =>
      rw [occursIn, Bool.or_eq_true, induction, List.isPrefixOf_iff_prefix,
        List.infix_cons_iff]

theorem hasOperator_iff {text : List Char} :
    hasOperator text = true ↔
      (∃ comparison ∈ comparisons, comparison.toList <:+: text) ∨
        ∃ word ∈ words text, String.ofList word.letters ∈ operatorWords := by
  simp [hasOperator, occursIn_iff_infix]

theorem hasOperator_append_cons
    {d : Char} (noWord : isWordChar d = false) {left right : List Char}
    (asks : hasOperator left = true ∨ hasOperator right = true) :
    hasOperator (left ++ d :: right) = true := by
  rw [hasOperator_iff, hasOperator_iff] at asks
  rw [hasOperator_iff, words_append_cons noWord]
  rcases asks with (⟨comparison, known, inside⟩ | ⟨word, member, known⟩) |
    (⟨comparison, known, inside⟩ | ⟨word, member, known⟩)
  · exact .inl
      ⟨comparison, known, inside.trans (List.prefix_append _ _).isInfix⟩
  · exact .inr ⟨word.before (d :: right),
      List.mem_append_left _ (List.mem_map_of_mem member), known⟩
  · have behind : right <:+: left ++ d :: right := ⟨left ++ [d], [], by simp⟩
    exact .inl ⟨comparison, known, inside.trans behind⟩
  · exact .inr ⟨word, List.mem_append_right _ member, known⟩

/-- An operator is no blank. -/
theorem exists_solid_of_hasOperator
    {text : List Char} (asks : hasOperator text = true) :
    ∃ c ∈ text, isBlank c = false := by
  have solid : ((comparisons ++ operatorWords).all fun operator =>
      operator.toList.any (!isBlank ·)) = true := by
    decide +kernel
  have found {operator : String}
    (known : operator ∈ comparisons ++ operatorWords)
    (inside : operator.toList <:+: text) :
      ∃ c ∈ text, isBlank c = false := by
    have some := List.all_eq_true.mp solid operator known
    obtain ⟨c, member, notBlank⟩ := List.any_eq_true.mp some
    exact ⟨c, inside.subset member, by simpa using notBlank⟩
  rcases hasOperator_iff.mp asks with
    ⟨comparison, known, inside⟩ | ⟨word, member, known⟩
  · exact found (List.mem_append_left _ known) inside
  · obtain ⟨before, stands⟩ := mem_words_iff.mp member
    refine found (List.mem_append_right _ known) ⟨before, word.rest, ?_⟩
    rw [String.toList_ofList, stands.shape, List.append_assoc]

/-- What the token machine may find behind a word: no further letter or
digit. -/
def Boundary (rest : List Char) : Prop :=
  ∀ c, rest.head? = some c → isWordPart c = false

/-- What the checks of the text need to know about a part of a condition,
printed with references written in any way; `asks` says whether it holds an
operator. -/
structure Quiet
    (asks : Bool) (spelling : (Reference → List Char) → List Char) : Prop where
  substitutes : ∀ replacement rest,
    Template.substitute replacement (spelling Reference.chars ++ rest) =
      spelling replacement ++ Template.substitute replacement rest
  passes : denied? (spelling Reference.chars) = none
  noPath : ((spelling Reference.chars).dropWhile isBlank).head? ≠ some '.'
  unreserved : ∀ c ∈ spelling (fun _ => []), isReserved c = false
  operator : asks = true → hasOperator (spelling Reference.chars) = true

/-- A part of a condition behind which the token machine stands as in front of
it, whatever brackets are open. -/
structure Legit
    (asks : Bool) (spelling : (Reference → List Char) → List Char) :
    Prop extends Quiet asks spelling where
  reads : ∀ {brackets rest}, Boundary rest →
    outcome allowedNames ⟨.code false, brackets⟩
      (spelling (fun _ => ['0']) ++ rest) =
      outcome allowedNames ⟨.code false, brackets⟩ rest

theorem quiet_nil : Quiet false fun _ => [] where
  substitutes _ _ := rfl
  passes := rfl
  noPath := by simp
  unreserved := List.forall_mem_nil _
  operator := by simp

theorem legit_nil : Legit false fun _ => [] :=
  ⟨quiet_nil, fun _ => rfl⟩

/-- Text without references. -/
theorem quiet_plain
    {asks : Bool} {text : List Char} (passes : denied? text = none)
    (unreserved : ∀ c ∈ text, isReserved c = false)
    (noPath : (text.dropWhile isBlank).head? ≠ some '.')
    (operator : asks = true → hasOperator text = true) :
    Quiet asks fun _ => text where
  substitutes replacement rest := by
    apply substitute_append
    rintro c member rfl
    cases unreserved _ member
  passes := passes
  noPath := noPath
  unreserved := unreserved
  operator := operator

section

variable {left right : (Reference → List Char) → List Char}
  {asksLeft asksRight : Bool}

theorem Quiet.divided
    (ofLeft : Quiet asksLeft left) (ofRight : Quiet asksRight right) {d : Char}
    (divider : isDivider d = true) (notReserved : isReserved d = false) :
    Quiet (asksLeft || asksRight) fun write =>
      left write ++ d :: right write where
  substitutes replacement rest := by
    have noBrace : ∀ c ∈ [d], c ≠ '\x7b' := by
      rw [List.forall_mem_singleton]
      rintro rfl
      cases notReserved
    have behind :=
      substitute_append replacement noBrace (right Reference.chars ++ rest)
    rw [List.append_assoc, ofLeft.substitutes, List.cons_append,
      ← List.singleton_append, behind, ofRight.substitutes]
    simp
  passes :=
    denied?_append_cons divider ofLeft.passes ofRight.passes ofRight.noPath
  noPath dot := by
    have noDot : d ≠ '.' := by
      rintro rfl
      cases divider
    exact ofLeft.noPath (dot_of_append_cons noDot ofRight.noPath dot)
  unreserved := by
    rw [List.forall_mem_append, List.forall_mem_cons]
    exact ⟨ofLeft.unreserved, notReserved, ofRight.unreserved⟩
  operator either := by
    have noWord : isWordChar d = false := by
      simp only [isDivider, Bool.and_eq_true, Bool.not_eq_true'] at divider
      exact divider.1.1.1.1
    apply hasOperator_append_cons noWord
    rcases Bool.or_eq_true_iff.mp either with asks | asks
    · exact .inl (ofLeft.operator asks)
    · exact .inr (ofRight.operator asks)

/-- Parts with a blank or a comma between them. -/
theorem Legit.divided
    (ofLeft : Legit asksLeft left) (ofRight : Legit asksRight right) {d : Char}
    (between : d = ' ' ∨ d = ',') :
    Legit (asksLeft || asksRight) fun write =>
      left write ++ d :: right write := by
  have divider : isDivider d = true := by
    rcases between with rfl | rfl
    all_goals decide
  have notReserved : isReserved d = false := by
    rcases between with rfl | rfl
    all_goals rfl
  refine ⟨ofLeft.toQuiet.divided ofRight.toQuiet divider notReserved, ?_⟩
  intro brackets rest boundary
  have isBoundary : Boundary (d :: (right (fun _ => ['0']) ++ rest)) := by
    rintro c ⟨⟩
    rcases between with rfl | rfl
    all_goals rfl
  have step : step allowedNames ⟨.code false, brackets⟩ d =
      .ok ⟨.code false, brackets⟩ := by
    rcases between with rfl | rfl
    all_goals rfl
  rw [List.append_assoc, List.cons_append, ofLeft.reads isBoundary,
    outcome_cons_of_step step, ofRight.reads boundary]

/-- A part in brackets, behind what the brackets belong to. -/
theorem Legit.enclosed
    (ofLeft : Legit asksLeft left) (ofRight : Legit asksRight right)
    {opens closes : Char}
    (pair : opens = '(' ∧ closes = ')' ∨ opens = '[' ∧ closes = ']') :
    Legit (asksLeft || asksRight) fun write =>
      left write ++ opens :: (right write ++ [closes]) := by
  have dividers : (isDivider opens = true ∧ isReserved opens = false) ∧
      isDivider closes = true ∧ isReserved closes = false := by
    rcases pair with ⟨rfl, rfl⟩ | ⟨rfl, rfl⟩
    all_goals decide
  have content := ofRight.toQuiet.divided quiet_nil dividers.2.1 dividers.2.2
  have whole := ofLeft.toQuiet.divided content dividers.1.1 dividers.1.2
  rw [Bool.or_false] at whole
  refine ⟨whole, ?_⟩
  intro brackets rest boundary
  have isBoundary :
      Boundary (opens :: (right (fun _ => ['0']) ++ closes :: rest)) := by
    rintro c ⟨⟩
    rcases pair with ⟨rfl, rfl⟩ | ⟨rfl, rfl⟩
    all_goals rfl
  have closing : Boundary (closes :: rest) := by
    rintro c ⟨⟩
    rcases pair with ⟨rfl, rfl⟩ | ⟨rfl, rfl⟩
    all_goals rfl
  have enters : step allowedNames ⟨.code false, brackets⟩ opens =
      .ok ⟨.code false, opens :: brackets⟩ := by
    rcases pair with ⟨rfl, rfl⟩ | ⟨rfl, rfl⟩
    all_goals rfl
  have leaves : step allowedNames ⟨.code false, opens :: brackets⟩ closes =
      .ok ⟨.code false, brackets⟩ := by
    rcases pair with ⟨rfl, rfl⟩ | ⟨rfl, rfl⟩
    all_goals rfl
  have shape :
      left (fun _ => ['0']) ++ opens :: (right (fun _ => ['0']) ++ [closes]) ++
        rest = left (fun _ => ['0']) ++
        opens :: (right (fun _ => ['0']) ++ closes :: rest) := by
    simp
  rw [shape, ofLeft.reads isBoundary, outcome_cons_of_step enters,
    ofRight.reads closing, outcome_cons_of_step leaves]

/-- Blanks in front of a part. -/
theorem Legit.indented (ofRight : Legit asksRight right) (count : Nat) :
    Legit asksRight fun write => List.replicate count ' ' ++ right write := by
  induction count with
  | zero => exact ofRight
  | succ count induction => exact legit_nil.divided induction (.inl rfl)

end

theorem isReserved_of_isWordPart {c : Char} (part : isWordPart c = true) :
    isReserved c = false := by
  apply Bool.eq_false_iff.mpr
  intro reserved
  simp only [isReserved, Bool.or_eq_true, beq_iff_eq] at reserved
  rcases reserved with (rfl | rfl) | rfl
  all_goals cases part

theorem isBlank_of_isWordPart {c : Char} (part : isWordPart c = true) :
    isBlank c = false := by
  apply Bool.eq_false_iff.mpr
  intro blank
  simp [isWordPart, not_isAlphanum_of_isBlank blank,
    ne_of_isBlank blank '_' rfl] at part

/-- A text that starts with a solid character other than a dot continues no
path. -/
theorem noPath_cons
    {c : Char} (solid : isBlank c = false) (noDot : c ≠ '.')
    (rest : List Char) :
    ((c :: rest).dropWhile isBlank).head? ≠ some '.' := by
  rw [List.dropWhile_cons_of_neg (by simp [solid])]
  simpa using noDot

/-- A word that the token machine lets pass. -/
theorem legit_word
    {asks : Bool} {word : List Char} (parts : ∀ c ∈ word, isWordPart c = true)
    (judged : judge allowedNames word = .ok ()) (passes : denied? word = none)
    (operator : asks = true → hasOperator word = true) :
    Legit asks fun _ => word := by
  have noPath : (word.dropWhile isBlank).head? ≠ some '.' := by
    cases word with
    | nil => simp
    | cons c word =>
        have part := parts c List.mem_cons_self
        refine noPath_cons (isBlank_of_isWordPart part) ?_ word
        rintro rfl
        cases part
  refine ⟨quiet_plain passes ?_ noPath operator, ?_⟩
  · intro c member
    exact isReserved_of_isWordPart (parts c member)
  · intro brackets rest boundary
    rw [outcome_word parts boundary, judged, ok_bind]

/-- The names that stand in formulas. -/
def formulaNames : List String :=
  constants ++ builtins ++ operatorWords

theorem legit_name {name : String} (known : name ∈ formulaNames) :
    Legit (operatorWords.contains name) fun _ => name.toList := by
  have each : (formulaNames.all fun name =>
      name.toList.all isWordPart &&
      decide (judge allowedNames name.toList = .ok ()) &&
      decide (denied? name.toList = none) &&
      (!operatorWords.contains name || hasOperator name.toList)) = true := by
    decide +kernel
  have facts := List.all_eq_true.mp each name known
  simp only [Bool.and_eq_true, List.all_eq_true, decide_eq_true_eq,
    Bool.or_eq_true, Bool.not_eq_true'] at facts
  obtain ⟨⟨⟨parts, judged⟩, passes⟩, operator⟩ := facts
  refine legit_word parts judged passes ?_
  intro isOperator
  rw [isOperator] at operator
  simpa using operator

/-- A word that is no operator. -/
theorem legit_value {name : String} (known : name ∈ constants ++ builtins) :
    Legit false fun _ => name.toList := by
  have noOperator :
      ((constants ++ builtins).all (!operatorWords.contains ·)) = true := by
    decide +kernel
  have legit := legit_name (List.mem_append_left operatorWords known)
  have facts := List.all_eq_true.mp noOperator name known
  rw [Bool.not_eq_true'] at facts
  rwa [facts] at legit

/-- Nothing forbidden is written with digits and points alone. -/
theorem denied?_of_numeric
    {text : List Char} (numeric : ∀ c ∈ text, c.isDigit = true ∨ c = '.') :
    denied? text = none := by
  have letters : ((deniedWords ++ deniedModules).all fun name =>
      name.toList.any fun c => !c.isDigit && c != '.') = true := by
    decide +kernel
  have noName {name : List Char}
    (known : String.ofList name ∈ deniedWords ++ deniedModules)
    (inside : name ⊆ text) :
      False := by
    have some := List.all_eq_true.mp letters _ known
    rw [String.toList_ofList] at some
    obtain ⟨c, member, other⟩ := List.any_eq_true.mp some
    have here := numeric c (inside member)
    simp_all
  have noSign {c : Char} (member : c ∈ text)
    (other : (!c.isDigit && c != '.') = true) :
      False := by
    have here := numeric c member
    simp_all
  apply denied?_eq_none_of_not_forbidden
  intro forbidden
  cases forbidden with
  | separator member separates =>
      apply noSign member
      rcases separates with rfl | rfl | rfl
      all_goals rfl
  | control member control noTab =>
      rcases numeric _ member with digit | rfl
      · obtain ⟨zero, nine⟩ : 48 ≤ Char.toNat _ ∧ Char.toNat _ ≤ 57 :=
          Char.isDigit_iff_toNat.mp digit
        simp only [isControl, Bool.or_eq_true, Bool.and_eq_true,
          decide_eq_true_eq] at control
        omega
      · cases control
  | word shape denied _ _ =>
      apply noName (List.mem_append_left _ denied)
      simp [shape]
  | modulePath shape denied _ _ =>
      apply noName (List.mem_append_right _ denied)
      simp [shape]
  | dunder shape _ _ => exact noSign (c := '_') (by simp [shape]) rfl
  | walrus shape => exact noSign (c := ':') (by simp [shape]) rfl
  | equals shape _ _ => exact noSign (c := '=') (by simp [shape]) rfl

theorem isWordPart_of_isDigit {c : Char} (digit : c.isDigit = true) :
    isWordPart c = true := by
  simp [isWordPart, Char.isAlphanum, digit]

theorem legit_digits (digits : Digits) : Legit false fun _ => digits.chars :=
  legit_word (fun c member => isWordPart_of_isDigit (digits.isDigit c member))
    (judge_digits digits.isDigit)
    (denied?_of_numeric fun c member => .inl (digits.isDigit c member))
    (by simp)

/-- Digits behind a point are a number, not an attribute. -/
theorem outcome_fraction
    (digits : Digits) {brackets rest : List Char} (boundary : Boundary rest) :
    outcome allowedNames ⟨.code true, brackets⟩ (digits.chars ++ rest) =
      outcome allowedNames ⟨.code false, brackets⟩ rest := by
  obtain ⟨first, more, shape⟩ := List.exists_cons_of_ne_nil digits.notEmpty
  have each := digits.isDigit
  rw [shape] at each ⊢
  obtain ⟨isDigit, later⟩ := List.forall_mem_cons.mp each
  have step : step allowedNames ⟨.code true, brackets⟩ first =
      .ok ⟨.number, brackets⟩ :=
    readCode_of_isDigit isDigit
  have left : rest.dropWhile isWordPart = rest := by
    cases rest with
    | nil => rfl
    | cons c rest =>
        exact List.dropWhile_cons_of_neg (by simp [boundary c rfl])
  rw [List.cons_append, outcome_cons_of_step step, outcome_number,
    List.dropWhile_append_of_pos, left]
  intro c member
  exact isWordPart_of_isDigit (later c member)

theorem legit_decimal (whole fraction : Digits) :
    Legit false fun _ => whole.chars ++ '.' :: fraction.chars := by
  have numeric : ∀ c ∈ whole.chars ++ '.' :: fraction.chars,
      c.isDigit = true ∨ c = '.' := by
    rw [List.forall_mem_append, List.forall_mem_cons]
    exact ⟨fun c member => .inl (whole.isDigit c member), .inr rfl,
      fun c member => .inl (fraction.isDigit c member)⟩
  refine ⟨quiet_plain (denied?_of_numeric numeric) ?_ ?_ (by simp), ?_⟩
  · intro c member
    rcases numeric c member with digit | rfl
    · exact isReserved_of_isWordPart (isWordPart_of_isDigit digit)
    · rfl
  · obtain ⟨first, more, shape⟩ := List.exists_cons_of_ne_nil whole.notEmpty
    have digit := whole.isDigit first (by simp [shape])
    rw [shape]
    refine noPath_cons (isBlank_of_isWordPart (isWordPart_of_isDigit digit)) ?_
      _
    rintro rfl
    cases digit
  · intro brackets rest boundary
    have point : Boundary ('.' :: (fraction.chars ++ rest)) := by
      rintro c ⟨⟩
      rfl
    have step : step allowedNames ⟨.code false, brackets⟩ '.' =
        .ok ⟨.code true, brackets⟩ := rfl
    rw [List.append_assoc, List.cons_append, (legit_digits whole).reads point,
      outcome_cons_of_step step, outcome_fraction fraction boundary]

theorem legit_literal
    (literal : Literal) (passes : denied? literal.chars = none) :
    Legit false fun _ => literal.chars := by
  obtain ⟨quote, content, isQuote, plain⟩ := literal
  have solid :
      isBlank quote = false ∧ quote ≠ '.' ∧ isReserved quote = false := by
    rcases isQuote with rfl | rfl
    all_goals decide
  refine ⟨quiet_plain passes ?_ (noPath_cons solid.1 solid.2.1 _) (by simp),
    ?_⟩
  · rw [Literal.chars, List.forall_mem_cons, List.forall_mem_append,
      List.forall_mem_singleton]
    exact ⟨solid.2.2, fun c member => (plain c member).2.2.1, solid.2.2⟩
  · intro brackets rest _
    have opens : step allowedNames ⟨.code false, brackets⟩ quote =
        .ok ⟨.quoted quote, brackets⟩ := by
      rcases isQuote with rfl | rfl
      all_goals rfl
    have closes : step allowedNames ⟨.quoted quote, brackets⟩ quote =
        .ok ⟨.code false, brackets⟩ := by
      rcases isQuote with rfl | rfl
      all_goals rfl
    have inside : ∀ c ∈ content, c ≠ '\\' ∧ c ≠ quote :=
      fun c member => ⟨(plain c member).2.1, (plain c member).1⟩
    rw [Literal.chars, List.cons_append, outcome_cons_of_step opens,
      List.append_assoc, outcome_plain inside, List.singleton_append,
      outcome_cons_of_step closes]

theorem legit_reference
    {target : Reference} (wellFormed : target.WellFormed)
    (passes : denied? target.chars = none) :
    Legit false fun write => write target where
  substitutes replacement rest :=
    substitute_reference replacement wellFormed rest
  passes := passes
  noPath := noPath_cons rfl (by decide) _
  unreserved := List.forall_mem_nil _
  operator := by simp
  reads boundary := by
    have parts : ∀ c ∈ ['0'], isWordPart c = true := by
      rw [List.forall_mem_singleton]
      rfl
    rw [outcome_word parts boundary]
    rfl

/-- Comparisons are signs that the token machine steps over. -/
theorem legit_comparison {symbol : String} (known : symbol ∈ comparisons) :
    Legit true fun _ => symbol.toList := by
  have each : (comparisons.all fun symbol =>
      decide (denied? symbol.toList = none) &&
        symbol.toList.all (['=', '!', '<', '>'].contains ·) &&
        decide ((symbol.toList.dropWhile isBlank).head? ≠ some '.') &&
        hasOperator symbol.toList) = true := by
    decide +kernel
  have facts := List.all_eq_true.mp each symbol known
  simp only [Bool.and_eq_true, List.all_eq_true, decide_eq_true_eq] at facts
  obtain ⟨⟨⟨passes, signs⟩, noPath⟩, operator⟩ := facts
  have sign {c : Char} (member : c ∈ symbol.toList) :
      c = '=' ∨ c = '!' ∨ c = '<' ∨ c = '>' := by
    simpa using signs c member
  refine ⟨quiet_plain passes ?_ noPath fun _ => operator, ?_⟩
  · intro c member
    rcases sign member with rfl | rfl | rfl | rfl
    all_goals rfl
  · intro brackets rest _
    generalize symbol.toList = text at sign
    induction text with
    | nil => rfl
    | cons c text induction =>
        have step : step allowedNames ⟨.code false, brackets⟩ c =
            .ok ⟨.code false, brackets⟩ := by
          rcases sign List.mem_cons_self with rfl | rfl | rfl | rfl
          all_goals rfl
        rw [List.cons_append, outcome_cons_of_step step]
        exact induction fun member => sign (List.mem_cons_of_mem c member)

theorem legit_operator :
    ∀ operator : Operator, Legit true fun _ => operator.text.toList
  | .comparison _ known => legit_comparison known
  | .word name known => by
      have operator : (["in", "is", "and", "or"].all fun name =>
          formulaNames.contains name && operatorWords.contains name) =
            true := by
        decide +kernel
      have facts := List.all_eq_true.mp operator name known
      rw [Bool.and_eq_true, List.contains_iff_mem] at facts
      have legit := legit_name facts.1
      rwa [facts.2] at legit
  | .notIn => by
      have first : "not" ∈ formulaNames := by decide +kernel
      have second : "in" ∈ formulaNames := by decide +kernel
      exact (legit_name first).divided (legit_name second) (.inl rfl)

namespace Formula

variable (gap : Nat)

mutual

/-- A formula is legitimate when its references and literals pass the
deny-list. -/
theorem legit :
    ∀ formula : Formula,
      (∀ operand ∈ formula.operands, denied? operand = none) →
      Legit formula.asks fun write => formula.spell gap write
  | .reference _ wellFormed, harmless =>
      legit_reference wellFormed (harmless _ List.mem_cons_self)
  | .number digits, _ => legit_digits digits
  | .decimal whole fraction, _ => legit_decimal whole fraction
  | .quoted literal, harmless =>
      legit_literal literal (harmless _ List.mem_cons_self)
  | .constant _ known, _ => legit_value (List.mem_append_left _ known)
  | .call _ known arguments, harmless =>
      (legit_value (List.mem_append_right _ known)).enclosed
        (legitList arguments harmless) (.inl ⟨rfl, rfl⟩)
  | .list items, harmless =>
      legit_nil.enclosed (legitList items harmless) (.inr ⟨rfl, rfl⟩)
  | .group inner, harmless =>
      legit_nil.enclosed (legit inner harmless) (.inl ⟨rfl, rfl⟩)
  | .negation inner, harmless => by
      have sign : "not" ∈ formulaNames := by decide +kernel
      exact (legit_name sign).divided (legit inner harmless) (.inl rfl)
  | .binary operator left right, harmless => by
      obtain ⟨ofLeft, ofRight⟩ := List.forall_mem_append.mp harmless
      have behind :=
        (legit_operator operator).divided (legit right ofRight) (.inl rfl)
      have whole := (legit left ofLeft).divided behind (.inl rfl)
      rw [Bool.true_or, Bool.or_true] at whole
      exact whole

theorem legitList : ∀ items : List Formula,
    (∀ operand ∈ operandsList items, denied? operand = none) →
      Legit (asksList items) fun write => spellList gap write items
  | [], _ => legit_nil
  | [item], harmless => by
      have only := legit item (List.forall_mem_append.mp harmless).1
      rw [asksList, asksList, Bool.or_false]
      exact only
  | item :: next :: rest, harmless => by
      obtain ⟨here, later⟩ := List.forall_mem_append.mp harmless
      exact (legit item here).divided
        ((legitList (next :: rest) later).indented gap) (.inr rfl)

end

variable {gap : Nat} {formula : Formula}

/-- A formula with an operator passes every check of a condition. -/
theorem check_of_asks (asks : formula.asks = true)
    (harmless : ∀ operand ∈ formula.operands, denied? operand = none) :
    check (formula.text gap) = .ok () := by
  have legit := formula.legit gap harmless
  have substituted (replacement : Reference → List Char) :
      Template.substitute replacement (formula.spell gap Reference.chars) =
        formula.spell gap replacement := by
    have whole := legit.substitutes replacement []
    have nothing : Template.substitute replacement [] = [] := rfl
    rwa [List.append_nil, nothing, List.append_nil] at whole
  have operator := legit.operator asks
  rw [check_eq_ok_iff, text, String.toList_ofList]
  refine ⟨trim_ne_nil (exists_solid_of_hasOperator operator), legit.passes,
    operator, ?_, ?_⟩
  · rw [strayReserved?, substituted, List.dropWhile_eq_nil_iff.mpr]
    intro c member
    simp [legit.unreserved c member]
  · have noMore : Boundary [] := by
      rintro c ⟨⟩
    rw [checkTokens_eq_outcome, withoutReferences, substituted,
      ← List.append_nil (spell ..)]
    exact legit.reads noMore

/-- Legitimate conditions are never refused: the checks accept a formula with
an operator as it is printed, and a branch is read with that text as its
condition. -/
theorem accepted_unchanged (asks : formula.asks = true)
    (harmless : ∀ operand ∈ formula.operands, denied? operand = none) :
    check (formula.text gap) = .ok () ∧
      ∀ (path : Path) (value : Value) (whenTrue : Node),
        (Document.readNode value (.field path "if_true")).Gives
          (some whenTrue) →
          (Document.readNode (.object [("type", .string "conditional"),
            ("condition", .string (formula.text gap)), ("if_true", value)])
              path).Gives
              (some (.branch (formula.text gap) whenTrue none)) := by
  have accepted : check (formula.text gap) = .ok () :=
    check_of_asks asks harmless
  refine ⟨accepted, ?_⟩
  intro path value whenTrue reads
  obtain ⟨node, document, ⟨⟩⟩ := (Document.readsBySchema value _ _).mp reads
  exact (Document.readsBySchema _ _ _).mpr
    ⟨_, .branch rfl rfl accepted rfl document (.inl rfl), rfl⟩

/-- Operators, a call, a list and literals inside each other. -/
def openOrder : Formula :=
  .binary (.word "and" (by simp))
    (.binary (.comparison ">=" (by simp [comparisons]))
      (.call "len" (by simp [builtins])
        [.reference ⟨"items", []⟩ ⟨by decide +kernel, by simp⟩])
      (.decimal ⟨['1'], by simp, by simp⟩ ⟨['5'], by simp, by simp⟩))
    (.negation (.group (.binary .notIn
      (.reference ⟨"order", ["state"]⟩
        ⟨by decide +kernel, by simp; decide +kernel⟩)
      (.list [.quoted ⟨'\'', "paid".toList, .inl rfl, by simp; decide⟩,
        .quoted ⟨'"', "it's".toList, .inr rfl, by simp; decide⟩]))))

theorem accepted_unchanged_openOrder :
    openOrder.text 1 = "len(\x7b\x7bitems\x7d\x7d) >= 1.5 and " ++
        "not (\x7b\x7border.state\x7d\x7d not in ['paid', \"it's\"])" ∧
      check (openOrder.text 1) = .ok () := by
  have harmless :
      (openOrder.operands.all fun operand => decide (denied? operand = none)) =
        true := by
    decide +kernel
  simp only [List.all_eq_true, decide_eq_true_eq] at harmless
  exact ⟨by decide +kernel,
    (accepted_unchanged (by decide +kernel) harmless).1⟩

end Formula

end Workflow.Condition
