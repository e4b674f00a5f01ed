import Mathlib.Data.List.TakeWhile
import Workflow.Value.Writer

/-!
# Tokens read back

A token that is written is read again, and nothing else of the text is taken.
Strings read back for every text, integers when 64 bits hold them; of a double
it has to be known.
-/

namespace Workflow

namespace Number

theorem ofDigits_append_singleton (digits : List Char) (digit : Char) :
    ofDigits (digits ++ [digit]) =
      10 * ofDigits digits + digitValue digit := by
  simp [ofDigits]

theorem digitValue_digitChar {digit : Nat} (small : digit < 10) :
    digitValue digit.digitChar = digit := by
  have all : ∀ digit : Fin 10, digitValue digit.val.digitChar = digit.val := by
    decide
  exact all ⟨digit, small⟩

theorem ofDigits_toDigits (n : Nat) : ofDigits (Nat.toDigits 10 n) = n := by
  induction n using Nat.strongRecOn with
  | _ n induction =>
      by_cases small : n < 10
      · rw [Nat.toDigits_of_lt_base small]
        simpa [ofDigits] using digitValue_digitChar small
      · have smaller : n / 10 < n := by omega
        rw [Nat.toDigits_of_base_le (by omega) (by omega),
          ofDigits_append_singleton, induction (n / 10) smaller,
          digitValue_digitChar (by omega)]
        omega

theorem isDigit_of_mem_toDigits
    {n : Nat} {c : Char} (member : c ∈ Nat.toDigits 10 n) :
    c.isDigit = true :=
  Nat.isDigit_of_mem_toDigits (by omega) (by omega) member

theorem head?_toDigits {n : Nat} (positive : 0 < n) :
    (Nat.toDigits 10 n).head? ≠ some '0' := by
  induction n using Nat.strongRecOn with
  | _ n induction =>
      by_cases small : n < 10
      · have noZero :
            ∀ digit : Fin 10, 0 < digit.val → digit.val.digitChar ≠ '0' := by
          decide
        rw [Nat.toDigits_of_lt_base small]
        simpa using noZero ⟨n, small⟩ positive
      · have front := induction (n / 10) (by omega) (by omega)
        obtain ⟨first, rest, shape⟩ :=
          List.exists_cons_of_ne_nil
            (Nat.toDigits_ne_nil : Nat.toDigits 10 (n / 10) ≠ [])
        rw [Nat.toDigits_of_base_le (by omega) (by omega), shape]
        rwa [shape] at front

theorem isWhole_toDigits (n : Nat) : isWhole (Nat.toDigits 10 n) = true := by
  have digits : (Nat.toDigits 10 n).all Char.isDigit = true :=
    List.all_eq_true.mpr fun c member => isDigit_of_mem_toDigits member
  have notEmpty : (Nat.toDigits 10 n).isEmpty = false := by
    simp [Nat.toDigits_ne_nil]
  by_cases small : n < 10
  · have one : (Nat.toDigits 10 n).length = 1 := by
      simp [Nat.toDigits_of_lt_base small]
    simp [isWhole, digits, notEmpty, one]
  · have head := head?_toDigits (show 0 < n by omega)
    simp [isWhole, digits, notEmpty, head]

/-- Digits alone have neither exponent nor fraction. -/
theorem splits_of_digits
    {digits : List Char} (allDigits : ∀ c ∈ digits, c.isDigit = true) :
    splitExponent? digits = some (digits, 0) ∧
    splitFraction? digits = some (digits, []) := by
  have different :
      ∀ other, other.isDigit = false → ∀ c ∈ digits, c ≠ other := by
    rintro other noDigit c member rfl
    simp [allDigits c member] at noDigit
  have noMark : digits.dropWhile (fun c => !(c == 'e' || c == 'E')) = [] := by
    rw [List.dropWhile_eq_nil_iff]
    intro c member
    simp [different 'e' rfl c member, different 'E' rfl c member]
  have noPoint : digits.dropWhile (fun c => c != '.') = [] := by
    rw [List.dropWhile_eq_nil_iff]
    intro c member
    simp [different '.' rfl c member]
  constructor
  · simp only [splitExponent?, noMark]
  · simp only [splitFraction?, noPoint]

theorem le_foldl_digits (digits : List Char) (significand : Nat) :
    significand ≤ digits.foldl
      (fun value digit => 10 * value + digitValue digit) significand := by
  induction digits generalizing significand with
  | nil => exact Nat.le_refl significand
  | cons digit rest induction =>
      have longer := induction (10 * significand + digitValue digit)
      rw [List.foldl_cons]
      omega

/-- Digits are read to the end when 64 bits hold the whole number. -/
theorem readWhole_eq {digits : List Char} {significand : Nat}
    (fits : digits.foldl (fun value digit => 10 * value + digitValue digit)
      significand < Nat.pow 2 64) :
    readWhole significand digits =
      (digits.foldl (fun value digit => 10 * value + digitValue digit)
        significand, 0) := by
  induction digits generalizing significand with
  | nil => rfl
  | cons digit rest induction =>
      have here : 10 * significand + digitValue digit < Nat.pow 2 64 :=
        Nat.lt_of_le_of_lt (le_foldl_digits rest _) fits
      rw [readWhole, if_pos here, induction fits]
      rfl

/-- An integer literal is judged by its sign and its magnitude, when 64 bits
hold that. -/
theorem ofJson?_toDigits {n : Nat} (fits : n < Nat.pow 2 64) :
    ofJson? (Nat.toDigits 10 n) = ofInteger? false n ∧
      ofJson? ('-' :: Nat.toDigits 10 n) = ofInteger? true n := by
  have allDigits : ∀ c ∈ Nat.toDigits 10 n, c.isDigit = true :=
    fun c member => isDigit_of_mem_toDigits member
  have whole : readWhole 0 (Nat.toDigits 10 n) = (n, 0) := by
    have value := ofDigits_toDigits n
    rw [ofDigits] at value
    rw [readWhole_eq (by rw [value]; exact fits), value]
  obtain ⟨exponent, fraction⟩ := splits_of_digits allDigits
  constructor
  · have unsigned : ∀ rest, Nat.toDigits 10 n ≠ '-' :: rest := by
      intro rest sign
      have digit := allDigits '-' (by simp [sign])
      exact absurd digit (by decide)
    simp [ofJson?, exponent, fraction, isWhole_toDigits, whole]
  · simp [ofJson?, exponent, fraction, isWhole_toDigits, whole]

/-- A number that reads back from the way it is written. An integer does when
64 bits hold it, signed or unsigned. -/
def Faithful : Number → Prop
  | .integer value => -0x8000000000000000 ≤ value ∧ value < 0x10000000000000000
  | .double value => ofJson? (Number.double value).chars = some (.double value)

instance : DecidablePred Faithful
  | .integer value => inferInstanceAs
      (Decidable (-0x8000000000000000 ≤ value ∧ value < 0x10000000000000000))
  | .double value =>
      inferInstanceAs (Decidable
          (ofJson? (Number.double value).chars = some (.double value)))

theorem ofJson?_chars {number : Number} (faithful : number.Faithful) :
    ofJson? number.chars = some number := by
  cases number with
  | double value => exact faithful
  | integer value =>
      obtain ⟨low, high⟩ := faithful
      have fits : value.natAbs < Nat.pow 2 64 := by
        change value.natAbs < 0x10000000000000000
        omega
      obtain ⟨natural, negated⟩ := ofJson?_toDigits fits
      by_cases negative : value < 0
      · have signed : 0 < value.natAbs ∧ value.natAbs ≤ Nat.pow 2 63 := by
          change 0 < value.natAbs ∧ value.natAbs ≤ 0x8000000000000000
          omega
        have same : -(value.natAbs : Int) = value := by omega
        simp only [chars, integerChars, negative, if_true, negated, ofInteger?,
          signed, and_self, same]
      · have same : (value.natAbs : Int) = value := by omega
        simp only [chars, integerChars, negative, if_false, natural,
          ofInteger?, Bool.false_eq_true, same]

/-- The text starts with a digit and goes on with characters of numbers. -/
def StartsWithDigit (text : List Char) : Prop :=
  ∃ first rest, text = first :: rest ∧ first.isDigit = true ∧
    ∀ c ∈ rest, Token.isNumberChar c = true

theorem isNumberChar_of_isDigit {c : Char} (digit : c.isDigit = true) :
    Token.isNumberChar c = true := by
  simp [Token.isNumberChar, digit]

theorem isNumberChar_of_mem_toDigits
    {n : Nat} {c : Char} (member : c ∈ Nat.toDigits 10 n) :
    Token.isNumberChar c = true :=
  isNumberChar_of_isDigit (isDigit_of_mem_toDigits member)

theorem startsWithDigit_toDigits (n : Nat) :
    StartsWithDigit (Nat.toDigits 10 n) := by
  obtain ⟨first, rest, shape⟩ :=
    List.exists_cons_of_ne_nil (Nat.toDigits_ne_nil : Nat.toDigits 10 n ≠ [])
  refine ⟨first, rest, shape,
    isDigit_of_mem_toDigits (shape ▸ List.mem_cons_self), ?_⟩
  intro c member
  exact isNumberChar_of_mem_toDigits
    (shape ▸ List.mem_cons_of_mem first member)

theorem StartsWithDigit.append
    {text more : List Char} (starts : StartsWithDigit text)
    (numberChars : ∀ c ∈ more, Token.isNumberChar c = true) :
    StartsWithDigit (text ++ more) := by
  obtain ⟨first, rest, rfl, digit, inRest⟩ := starts
  refine ⟨first, rest ++ more, rfl, digit, ?_⟩
  intro c member
  rcases List.mem_append.mp member with before | behind
  · exact inRest c before
  · exact numberChars c behind

theorem StartsWithDigit.take
    {text : List Char} (starts : StartsWithDigit text) {count : Nat}
    (positive : 0 < count) :
    StartsWithDigit (text.take count) := by
  obtain ⟨first, rest, rfl, digit, inRest⟩ := starts
  obtain ⟨count, rfl⟩ : ∃ smaller, count = smaller + 1 := ⟨count - 1, by omega⟩
  refine ⟨first, rest.take count, rfl, digit, ?_⟩
  intro c member
  exact inRest c (List.mem_of_mem_take member)

theorem startsWithDigit_decimalChars (decimal : Decimal) :
    StartsWithDigit (decimalChars decimal) := by
  have digits := startsWithDigit_toDigits decimal.digits
  have inDigits : ∀ {c : Char} {count : Nat},
      c ∈ (Nat.toDigits 10 decimal.digits).drop count →
      Token.isNumberChar c = true :=
    fun member => isNumberChar_of_mem_toDigits (List.mem_of_mem_drop member)
  simp only [decimalChars]
  split
  · rw [List.append_assoc]
    apply digits.append
    intro c member
    rcases List.mem_append.mp member with zero | point
    · rw [List.eq_of_mem_replicate zero]
      rfl
    · have plain : ∀ c ∈ ['.', '0'], Token.isNumberChar c = true := by
        simp [Token.isNumberChar]
      exact plain c point
  · split
    · apply (digits.take (by omega)).append
      intro c member
      rcases List.mem_cons.mp member with rfl | behind
      · rfl
      · exact inDigits behind
    · split
      · refine ⟨'0', _, rfl, rfl, ?_⟩
        intro c member
        rcases List.mem_cons.mp member with rfl | behind
        · rfl
        · rcases List.mem_append.mp behind with zero | digit
          · rw [List.eq_of_mem_replicate zero]
            rfl
          · exact isNumberChar_of_mem_toDigits digit
      · rw [List.append_assoc]
        apply (digits.take (by omega)).append
        intro c member
        rcases List.mem_append.mp member with fraction | power
        · split at fraction
          · cases fraction
          · rcases List.mem_cons.mp fraction with rfl | behind
            · rfl
            · exact inDigits behind
        · rcases List.mem_cons.mp power with rfl | power
          · rfl
          · rcases List.mem_cons.mp power with rfl | digit
            · split <;> rfl
            · exact isNumberChar_of_mem_toDigits digit

/-- A number starts with a digit or a minus sign and goes on with characters of
numbers. -/
theorem chars_eq_cons (number : Number) :
    ∃ first rest,
      number.chars = first :: rest ∧ (first.isDigit || first == '-') = true ∧
      ∀ c ∈ rest, Token.isNumberChar c = true := by
  have signed : ∀ (negative : Bool) {text : List Char}, StartsWithDigit text →
      ∃ first rest, (if negative then '-' :: text else text) = first :: rest ∧
        (first.isDigit || first == '-') = true ∧
        ∀ c ∈ rest, Token.isNumberChar c = true := by
    rintro negative text ⟨first, rest, rfl, digit, inRest⟩
    cases negative with
    | false => exact ⟨first, rest, rfl, by simp [digit], inRest⟩
    | true =>
        refine ⟨'-', first :: rest, rfl, rfl, ?_⟩
        intro c member
        rcases List.mem_cons.mp member with rfl | behind
        · exact isNumberChar_of_isDigit digit
        · exact inRest c behind
  cases number with
  | integer value =>
      have found := signed (value < 0) (startsWithDigit_toDigits value.natAbs)
      simpa [chars, integerChars] using found
  | double value =>
      exact signed value.negative (startsWithDigit_decimalChars value.shortest)

end Number

namespace Token

theorem hexValue?_hexDigit {digit : Nat} (small : digit < 16) :
    hexValue? (Text.hexDigit digit) = some digit := by
  have all : ∀ digit : Fin 16,
      hexValue? (Text.hexDigit digit.val) = some digit.val := by decide
  exact all ⟨digit, small⟩

/-- A printed character stands for itself. -/
theorem unquote?_cons
    (reversed : List Char) {c : Char} (rest : List Char) (noQuote : c ≠ '"')
    (noBackslash : c ≠ '\\') (printed : ¬ c.toNat < 0x20) :
    unquote? reversed (c :: rest) = unquote? (c :: reversed) rest := by
  rw [unquote?.eq_def]
  split
  · rename_i shape
    cases shape
  · rename_i shape
    exact absurd (List.cons.inj shape).1 noQuote
  · rename_i shape
    exact absurd (List.cons.inj shape).1 noBackslash
  · rename_i shape
    exact absurd (List.cons.inj shape).1 noBackslash
  · rename_i shape
    obtain ⟨rfl, rfl⟩ := List.cons.inj shape
    rw [if_neg printed]

/-- A character is read back from the way it is written between quotes. -/
theorem unquote?_escape (reversed : List Char) (c : Char) (rest : List Char) :
    unquote? reversed (Text.escape c ++ rest) =
      unquote? (c :: reversed) rest := by
  unfold Text.escape
  iterate 7 (split; subst_vars; rfl)
  split
  · rename_i control
    have high :
        hexValue? (Text.hexDigit (c.toNat / 16)) = some (c.toNat / 16) :=
      hexValue?_hexDigit (by omega)
    have low :
        hexValue? (Text.hexDigit (c.toNat % 16)) = some (c.toNat % 16) :=
      hexValue?_hexDigit (by omega)
    have zero : hexValue? '0' = some 0 := rfl
    have code :
        hexValue4? '0' '0' (Text.hexDigit (c.toNat / 16))
          (Text.hexDigit (c.toNat % 16)) = some c.toNat := by
      simp only [hexValue4?, high, low, zero, Option.bind_eq_bind,
        Option.bind_some, Option.pure_def, Option.some.injEq]
      omega
    have noHigh : ¬ (0xD800 ≤ c.toNat ∧ c.toNat < 0xDC00) := by omega
    have noLow : ¬ (0xDC00 ≤ c.toNat ∧ c.toNat < 0xE000) := by omega
    simp only [List.cons_append, List.nil_append, unquote?, code,
      if_neg noHigh, if_neg noLow, Char.ofNat_toNat]
  · rename_i printed
    exact unquote?_cons reversed rest ‹¬c = '"'› ‹¬c = '\\'› printed

theorem unquote?_flatMap_escape
    (text rest : List Char) (reversed : List Char) :
    unquote? reversed (text.flatMap Text.escape ++ '"' :: rest) =
      some (reversed.reverse ++ text, rest) := by
  induction text generalizing reversed with
  | nil => simp [unquote?]
  | cons c text induction =>
      rw [List.flatMap_cons, List.append_assoc, unquote?_escape, induction]
      simp

/-- A token that reads back: only numbers may fail to. -/
def Faithful : Token → Prop
  | .number value => value.Faithful
  | _ => True

/-- What follows a number does not go on with it. -/
def Apart (rest : List Char) : Prop :=
  ∀ c ∈ rest.head?, isNumberChar c = false

theorem lexFrom?_number
    {value : Number} (faithful : value.Faithful) {rest : List Char}
    (apart : Apart rest) (found : List Token) :
    lexFrom? found (value.chars ++ rest) =
      lexFrom? (.number value :: found) rest := by
  obtain ⟨first, digits, shape, start, numberChars⟩ := value.chars_eq_cons
  have taken : (digits ++ rest).takeWhile isNumberChar = digits := by
    rw [List.takeWhile_append_of_pos numberChars]
    cases rest with
    | nil => simp
    | cons c rest => simp [apart c rfl]
  have dropped : (digits ++ rest).dropWhile isNumberChar = rest := by
    rw [List.dropWhile_append_of_pos numberChars]
    cases rest with
    | nil => simp
    | cons c rest => simp [apart c rfl]
  have back := Number.ofJson?_chars faithful
  rw [shape] at back
  rw [shape, List.cons_append, lexFrom?]
  · simp only [start, if_true, taken, dropped, back]
  -- no other token starts like a number
  all_goals
    intros
    subst first
    exact absurd start (by decide)

/-- A token is read again from the way it is written. -/
theorem lexFrom?_chars
    {token : Token} (faithful : token.Faithful) {rest : List Char}
    (apart : Apart rest) (found : List Token) :
    lexFrom? found (token.chars ++ rest) = lexFrom? (token :: found) rest := by
  cases token with
  | number value => exact lexFrom?_number faithful apart found
  | text value =>
      have inside := unquote?_flatMap_escape value.toList rest []
      rw [chars, Text.quotedChars, List.cons_append, List.append_assoc,
        List.singleton_append, lexFrom?]
      split
      · rename_i read after equation
        obtain ⟨rfl, rfl⟩ : value.toList = read ∧ rest = after := by
          simpa [inside] using equation
        rw [String.ofList_toList]
      · rename_i equation
        simp [inside] at equation
  | bool value =>
      cases value with
      | false => simp [chars, lexFrom?]
      | true => simp [chars, lexFrom?]
  | _ => simp [chars, lexFrom?]

end Token

end Workflow
