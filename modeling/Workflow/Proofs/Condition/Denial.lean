import Workflow.Condition.Check
import Workflow.Proofs.Sequencing
import Workflow.Proofs.Text.Words

/-!
# What the deny-list refuses

The checks of the deny-list go through a text from left to right with runs,
pairs and neighbours.  `Forbidden` says what they look for without any order:
some part of the text, with conditions on what stands next to it.  A text that
holds such a part is always refused, and refused for it before anything else is
asked of the text; a text that holds none passes the deny-list.
-/

namespace Workflow.Condition

open Text

/-- What no condition may hold, at any place. -/
inductive Forbidden (text : List Char) : Prop where
  | separator {c : Char} (member : c ∈ text)
      (separates : c = ';' ∨ c = '\n' ∨ c = '\r')
  | control {c : Char} (member : c ∈ text) (control : isControl c = true)
      (noTab : c ≠ '\t')
  | word {before word after : List Char}
      (shape : text = before ++ (word ++ after))
      (denied : String.ofList word ∈ deniedWords)
      (endsApart : EndsApart before) (startsApart : StartsApart after)
  | modulePath {before name blanks after : List Char}
      (shape : text = before ++ (name ++ (blanks ++ '.' :: after)))
      (denied : String.ofList name ∈ deniedModules)
      (endsApart : EndsApart before)
      (blank : ∀ c ∈ blanks, isBlank c = true)
  | dunder {before inner after : List Char}
      (shape : text = before ++ ('_' :: '_' :: (inner ++ '_' :: '_' :: after)))
      (notEmpty : inner ≠ []) (wordChars : ∀ c ∈ inner, isWordChar c = true)
  | walrus {before after : List Char}
      (shape : text = before ++ ':' :: '=' :: after)
  | equals {before after : List Char} (shape : text = before ++ '=' :: after)
      (alone : ∀ c ∈ before.getLast?, c ∉ ['=', '!', '<', '>', ':'])
      (single : after.head? ≠ some '=')

/-- Problems that the deny-list reports. -/
def Problem.isDenial : Problem → Bool
  | .statementSeparator | .assignment | .forbiddenToken _ => true
  | _ => false

theorem denied?_eq_none_iff {text : List Char} :
    denied? text = none ↔
      (∀ c ∈ text, isSeparator c = false) ∧
      (∀ c ∈ text, isForbiddenControl c = false) ∧
        dunder? text = none ∧
        (∀ word ∈ words text, String.ofList word.letters ∉ deniedWords) ∧
        (∀ word ∈ words text, isModulePath word = false) ∧
        assigns text = false := by
  simp [denied?, deniedWord?, deniedModule?]

theorem isDenial_of_denied? {text : List Char} {problem : Problem}
    (denied : denied? text = some problem) : problem.isDenial = true := by
  simp only [denied?, Option.orElse_eq_orElse, Option.orElse_eq_or,
    Option.or_eq_some_iff, Option.map_eq_some_iff] at denied
  grind [Problem.isDenial]

theorem upToLastPair?_eq_none_iff {text : List Char} :
    upToLastPair? text = none ↔ ¬ ['_', '_'] <:+: text := by
  induction text with
  | nil => simp [upToLastPair?]
  | cons c rest induction =>
      have starts :
          ['_', '_'] <+: c :: rest ↔ c = '_' ∧ rest.head? = some '_' := by
        cases rest with
        | nil => simp [List.cons_prefix_cons]
        | cons d rest =>
            rw [List.cons_prefix_cons, List.cons_prefix_cons, List.head?_cons,
              Option.some_inj, eq_comm, @eq_comm _ '_' d]
            simp
      rw [upToLastPair?, List.infix_cons_iff, not_or, ← induction, starts]
      cases upToLastPair? rest with
      | some behind => simp
      | none => simp

/-- A name between double underscores stands at the start of a text. -/
def StartsWithDunder (text : List Char) : Prop :=
  ∃ inner after,
    text = '_' :: '_' :: (inner ++ '_' :: '_' :: after) ∧ inner ≠ [] ∧
    ∀ c ∈ inner, isWordChar c = true

theorem startsWithDunder_iff {rest : List Char} :
    StartsWithDunder ('_' :: '_' :: rest) ↔
      ∃ first run,
        rest.takeWhile isWordChar = first :: run ∧ ['_', '_'] <:+: run := by
  have underscore : isWordChar '_' = true := by decide
  constructor
  · rintro ⟨inner, after, shape, notEmpty, wordChars⟩
    obtain ⟨first, more, rfl⟩ := List.exists_cons_of_ne_nil notEmpty
    obtain rfl : rest = first :: more ++ '_' :: '_' :: after := by
      simpa using shape
    refine ⟨first, more ++ '_' :: '_' :: after.takeWhile isWordChar, ?_, ?_⟩
    · rw [List.takeWhile_append_of_pos wordChars]
      simp [underscore]
    · exact ⟨more, after.takeWhile isWordChar, by simp⟩
  · rintro ⟨first, run, taken, more, behind, rfl⟩
    have wordChars : ∀ c ∈ rest.takeWhile isWordChar, isWordChar c = true :=
      List.all_eq_true.mp List.all_takeWhile
    rw [taken] at wordChars
    refine ⟨first :: more, behind ++ rest.dropWhile isWordChar, ?_, by simp,
      ?_⟩
    · have whole : rest =
          first :: (more ++ ['_', '_'] ++ behind) ++ rest.dropWhile
            isWordChar := by
        rw [← taken, List.takeWhile_append_dropWhile]
      have parts := congrArg ('_' :: '_' :: ·) whole
      simpa using parts
    · intro c member
      apply wordChars
      rcases List.mem_cons.mp member with rfl | later
      · exact List.mem_cons_self
      · simp [later]

theorem dunderAt?_eq_none_iff {text : List Char} :
    dunderAt? text = none ↔ ¬ StartsWithDunder text := by
  unfold dunderAt?
  split
  · rename_i rest
    rw [startsWithDunder_iff]
    cases taken : rest.takeWhile isWordChar with
    | nil => simp
    | cons first run => simp [upToLastPair?_eq_none_iff]
  · rename_i other
    constructor
    · rintro - ⟨inner, after, shape, _⟩
      exact other _ shape
    · intro _
      rfl

theorem dunder?_eq_none_iff {text : List Char} :
    dunder? text = none ↔
      ∀ before after, text = before ++ after → ¬ StartsWithDunder after := by
  induction text with
  | nil =>
      constructor
      · intro _ before after shape
        obtain ⟨rfl, rfl⟩ := List.append_eq_nil_iff.mp shape.symm
        rintro ⟨inner, after, shape, _⟩
        cases shape
      · intro _
        rfl
  | cons c rest induction =>
      have here :
          dunderAt? (c :: rest) = none ↔ ¬ StartsWithDunder (c :: rest) :=
        dunderAt?_eq_none_iff
      rw [dunder?]
      constructor
      · intro notFound before after shape
        split at notFound
        · cases notFound
        · rename_i notHere
          cases before with
          | nil =>
              obtain rfl : c :: rest = after := shape
              exact here.mp notHere
          | cons d before =>
              obtain ⟨rfl, later⟩ := List.cons.inj shape
              exact induction.mp notFound before after later
      · intro nowhere
        rw [here.mpr (nowhere [] _ rfl)]
        apply induction.mpr
        rintro before after rfl
        exact nowhere (c :: before) after rfl

/-- A comparison cannot be made of an equals sign and the character in front of
it. -/
def Alone (previous : Option Char) : Prop :=
  ∀ c ∈ previous, c ∉ ['=', '!', '<', '>', ':']

theorem alone_iff {previous : Option Char} :
    Alone previous ↔ previous.any isComparisonStart = false := by
  cases previous with
  | none => simp [Alone]
  | some c => simp [Alone, isComparisonStart, and_assoc]

/-- Somewhere in a text stands an assignment, given the character in front of
the text. -/
def AssignsAfter (previous : Option Char) (text : List Char) : Prop :=
  (∃ before after,
    text = before ++ '=' :: after ∧ Alone (before.getLast?.or previous) ∧
      after.head? ≠ some '=') ∨
    ∃ before after, text = before ++ ':' :: '=' :: after

theorem getLast?_cons_or
    (c : Char) (before : List Char) (previous : Option Char) :
    (c :: before).getLast?.or previous = before.getLast?.or (some c) := by
  rw [List.getLast?_cons]
  cases before.getLast? with
  | none => rfl
  | some last => rfl

theorem assignsAfter_iff {previous : Option Char} {text : List Char} :
    assignsAfter previous text = true ↔ AssignsAfter previous text := by
  induction text generalizing previous with
  | nil => simp [assignsAfter, AssignsAfter]
  | cons c rest induction =>
      have here :
          (c == '=' && !previous.any isComparisonStart &&
            rest.head? != some '=') = true ↔
          c = '=' ∧ Alone previous ∧ rest.head? ≠ some '=' := by
        simp [alone_iff, and_assoc]
      have colon : (c == ':' && rest.head? == some '=') = true ↔
          c = ':' ∧ rest.head? = some '=' := by simp
      rw [assignsAfter, Bool.or_eq_true, Bool.or_eq_true, here, colon,
        induction]
      constructor
      · rintro ((⟨rfl, alone, single⟩ | ⟨rfl, next⟩) | later)
        · exact .inl ⟨[], rest, rfl, alone, single⟩
        · obtain ⟨after, rfl⟩ := List.head?_eq_some_iff.mp next
          exact .inr ⟨[], after, rfl⟩
        · rcases later with
            ⟨before, after, rfl, alone, single⟩ | ⟨before, after, rfl⟩
          · rw [← getLast?_cons_or c before previous] at alone
            exact .inl ⟨c :: before, after, rfl, alone, single⟩
          · exact .inr ⟨c :: before, after, rfl⟩
      · rintro (⟨before, after, shape, alone, single⟩ | ⟨before, after, shape⟩)
        · cases before with
          | nil =>
              obtain ⟨rfl, rfl⟩ := List.cons.inj shape
              exact .inl (.inl ⟨rfl, alone, single⟩)
          | cons d before =>
              obtain ⟨rfl, rfl⟩ := List.cons.inj shape
              rw [getLast?_cons_or] at alone
              exact .inr (.inl ⟨before, after, rfl, alone, single⟩)
        · cases before with
          | nil =>
              obtain ⟨rfl, rfl⟩ := List.cons.inj shape
              exact .inl (.inr ⟨rfl, rfl⟩)
          | cons d before =>
              obtain ⟨rfl, rfl⟩ := List.cons.inj shape
              exact .inr (.inr ⟨before, after, rfl⟩)

/-- The words of the deny-list are made of word characters. -/
theorem isWordChar_of_mem_denied {word : List Char}
    (denied : String.ofList word ∈ deniedWords ++ deniedModules) :
    word ≠ [] ∧ ∀ c ∈ word, isWordChar c = true := by
  have each : ((deniedWords ++ deniedModules).all fun name =>
      !name.toList.isEmpty && name.toList.all isWordChar) = true := by
    decide +kernel
  simpa using List.all_eq_true.mp each _ denied

theorem mem_deniedWords_iff {text : List Char} :
    (∃ word ∈ words text, String.ofList word.letters ∈ deniedWords) ↔
      ∃ before word after, text = before ++ (word ++ after) ∧
        String.ofList word ∈ deniedWords ∧ EndsApart before ∧
        StartsApart after := by
  constructor
  · rintro ⟨⟨letters, after⟩, member, denied⟩
    obtain ⟨before, stands⟩ := mem_words_iff.mp member
    exact ⟨before, letters, after, stands.shape, denied, stands.endsApart,
      stands.startsApart⟩
  · rintro ⟨before, word, after, shape, denied, endsApart, startsApart⟩
    obtain ⟨notEmpty, wordChars⟩ :=
      isWordChar_of_mem_denied (List.mem_append_left deniedModules denied)
    refine ⟨⟨word, after⟩, mem_words_iff.mpr ⟨before, ?_⟩, denied⟩
    exact ⟨shape, notEmpty, wordChars, endsApart, startsApart⟩

theorem isModulePath_iff {word : Word} :
    isModulePath word = true ↔ String.ofList word.letters ∈ deniedModules ∧
      ∃ blanks after, word.rest = blanks ++ '.' :: after ∧
        ∀ c ∈ blanks, isBlank c = true := by
  have noBlank : isBlank '.' = false := by decide
  simp only [isModulePath, Bool.and_eq_true, List.contains_iff_mem, beq_iff_eq]
  refine and_congr_right fun _ => ?_
  constructor
  · intro dot
    obtain ⟨after, behind⟩ := List.head?_eq_some_iff.mp dot
    refine ⟨word.rest.takeWhile isBlank, after, ?_,
      List.all_eq_true.mp List.all_takeWhile⟩
    rw [← behind, List.takeWhile_append_dropWhile]
  · rintro ⟨blanks, after, shape, blank⟩
    rw [shape, List.dropWhile_append_of_pos blank]
    simp [noBlank]

theorem startsApart_blanks
    {blanks after : List Char} (blank : ∀ c ∈ blanks, isBlank c = true) :
    StartsApart (blanks ++ '.' :: after) := by
  intro c first
  cases blanks with
  | nil =>
      obtain rfl : '.' = c := by simpa using first
      decide
  | cons d blanks =>
      obtain rfl : d = c := by simpa using first
      exact not_isWordChar_of_isBlank (blank d List.mem_cons_self)

theorem exists_modulePath_iff {text : List Char} :
    (∃ word ∈ words text, isModulePath word = true) ↔
      ∃ before name blanks after,
        text = before ++ (name ++ (blanks ++ '.' :: after)) ∧
        String.ofList name ∈ deniedModules ∧ EndsApart before ∧
        ∀ c ∈ blanks, isBlank c = true := by
  constructor
  · rintro ⟨⟨letters, rest⟩, member, path⟩
    obtain ⟨denied, blanks, after, rfl, blank⟩ := isModulePath_iff.mp path
    obtain ⟨before, stands⟩ := mem_words_iff.mp member
    exact ⟨before, letters, blanks, after, stands.shape, denied,
      stands.endsApart, blank⟩
  · rintro ⟨before, name, blanks, after, shape, denied, endsApart, blank⟩
    obtain ⟨notEmpty, wordChars⟩ :=
      isWordChar_of_mem_denied (List.mem_append_right deniedWords denied)
    refine ⟨⟨name, blanks ++ '.' :: after⟩, mem_words_iff.mpr ⟨before, ?_⟩, ?_⟩
    · exact ⟨shape, notEmpty, wordChars, endsApart, startsApart_blanks blank⟩
    · exact isModulePath_iff.mpr ⟨denied, blanks, after, rfl, blank⟩

/-- Characters that nothing forbidden reaches across: they belong to no word,
no path and no comparison, and are allowed themselves. -/
def isDivider (d : Char) : Bool :=
  !isWordChar d && !isSeparator d && !isForbiddenControl d &&
  !isComparisonStart d && d != '.'

theorem takeWhile_append_cons
    {p : Char → Bool} {d : Char} (stops : p d = false)
    (left right : List Char) :
    (left ++ d :: right).takeWhile p = left.takeWhile p := by
  induction left with
  | nil => simp [stops]
  | cons c left induction => simp [List.takeWhile_cons, induction]

theorem dunderAt?_append_cons
    {d : Char} (noWord : isWordChar d = false) (left right : List Char) :
    dunderAt? (left ++ d :: right) = dunderAt? left := by
  have noUnderscore : d ≠ '_' := by
    rintro rfl
    exact absurd noWord (by decide)
  match left with
  | [] => simp [dunderAt?, noUnderscore]
  | [c] => simp [dunderAt?, noUnderscore]
  | c :: e :: left =>
      by_cases pair : c = '_' ∧ e = '_'
      · obtain ⟨rfl, rfl⟩ := pair
        simp only [List.cons_append, dunderAt?, takeWhile_append_cons noWord]
      · simp_all [dunderAt?]

theorem dunder?_append_cons
    {d : Char} (noWord : isWordChar d = false) {left right : List Char}
    (notLeft : dunder? left = none) (notRight : dunder? right = none) :
    dunder? (left ++ d :: right) = none := by
  induction left with
  | nil =>
      have notHere : dunderAt? (d :: right) = none :=
        dunderAt?_append_cons noWord [] right
      rw [List.nil_append, dunder?, notHere]
      exact notRight
  | cons c left induction =>
      rw [dunder?] at notLeft
      split at notLeft
      · cases notLeft
      · rename_i notHere
        rw [List.cons_append, dunder?, ← List.cons_append,
          dunderAt?_append_cons noWord, notHere]
        exact induction notLeft

theorem assignsAfter_append_cons
    {d : Char} (noComparison : isComparisonStart d = false)
    (previous : Option Char) (left right : List Char) :
    assignsAfter previous (left ++ d :: right) =
      (assignsAfter previous left || assigns right) := by
  have noEquals : d ≠ '=' ∧ d ≠ ':' := by
    constructor <;> rintro rfl <;> cases noComparison
  induction left generalizing previous with
  | nil =>
      have fresh : assignsAfter (some d) right = assigns right := by
        cases right with
        | nil => rfl
        | cons c right => simp [assigns, assignsAfter, noComparison]
      simp [assignsAfter, noEquals, fresh]
  | cons c left induction =>
      have next : ((left ++ d :: right).head? == some '=') =
          (left.head? == some '=') := by
        cases left with
        | nil => simp [noEquals]
        | cons e left => rfl
      simp only [List.cons_append, assignsAfter, bne, next, induction,
        Bool.or_assoc]

/-- A dot that follows a text behind blanks follows a shorter text already. -/
theorem dot_of_append_cons
    {d : Char} (noDot : d ≠ '.') {rest right : List Char}
    (noPath : (right.dropWhile isBlank).head? ≠ some '.')
    (dot : ((rest ++ d :: right).dropWhile isBlank).head? = some '.') :
    (rest.dropWhile isBlank).head? = some '.' := by
  induction rest with
  | nil =>
      rw [List.nil_append, List.dropWhile_cons] at dot
      split at dot
      · exact absurd dot noPath
      · exact absurd (Option.some.inj dot) noDot
  | cons c rest induction =>
      by_cases blank : isBlank c = true
      · rw [List.cons_append, List.dropWhile_cons_of_pos blank] at dot
        rw [List.dropWhile_cons_of_pos blank]
        exact induction dot
      · rw [List.cons_append, List.dropWhile_cons_of_neg blank] at dot
        rw [List.dropWhile_cons_of_neg blank]
        exact dot

/-- Texts that pass the deny-list pass it together, with a divider between
them, unless the second one goes on with a dot. -/
theorem denied?_append_cons
    {d : Char} (divider : isDivider d = true) {left right : List Char}
    (leftPassed : denied? left = none) (rightPassed : denied? right = none)
    (noPath : (right.dropWhile isBlank).head? ≠ some '.') :
    denied? (left ++ d :: right) = none := by
  simp only [isDivider, Bool.and_eq_true, Bool.not_eq_true',
    bne_iff_ne] at divider
  obtain ⟨⟨⟨⟨noWord, noSeparator⟩, noControl⟩, noComparison⟩, noDot⟩ := divider
  obtain ⟨separator, control, dunder, words, modules, assigned⟩ :=
    denied?_eq_none_iff.mp leftPassed
  obtain ⟨separator', control', dunder', words', modules', assigned'⟩ :=
    denied?_eq_none_iff.mp rightPassed
  apply denied?_eq_none_iff.mpr
  rw [words_append_cons noWord]
  simp only [List.forall_mem_append, List.forall_mem_cons, List.forall_mem_map]
  refine ⟨⟨separator, noSeparator, separator'⟩, ⟨control, noControl, control'⟩,
    dunder?_append_cons noWord dunder dunder', ⟨words, words'⟩, ⟨?_, modules'⟩,
    ?_⟩
  · intro word member
    have notHere := modules word member
    rw [← Bool.not_eq_true, isModulePath, Bool.and_eq_true, not_and,
      beq_iff_eq] at notHere ⊢
    intro denied dot
    exact notHere denied (dot_of_append_cons noDot noPath dot)
  · rw [assigns, assignsAfter_append_cons noComparison]
    exact Bool.or_eq_false_iff.mpr ⟨assigned, assigned'⟩

theorem not_forbidden_of_denied?_eq_none
    {text : List Char} (passed : denied? text = none) :
    ¬ Forbidden text := by
  obtain ⟨noSeparator, noControl, noDunder, noWord, noModule, noAssignment⟩ :=
    denied?_eq_none_iff.mp passed
  have notAssigned : ¬ AssignsAfter none text := by
    rw [← assignsAfter_iff]
    exact Bool.not_eq_true _ ▸ noAssignment
  intro forbidden
  cases forbidden with
  | separator member separates =>
      have here := noSeparator _ member
      rcases separates with rfl | rfl | rfl
      all_goals cases here
  | control member control noTab =>
      have here := noControl _ member
      simp [isForbiddenControl, control, noTab] at here
  | word shape denied endsApart startsApart =>
      obtain ⟨word, member, isDenied⟩ :=
        mem_deniedWords_iff.mpr
          ⟨_, _, _, shape, denied, endsApart, startsApart⟩
      exact noWord word member isDenied
  | modulePath shape denied endsApart blank =>
      obtain ⟨word, member, path⟩ :=
        exists_modulePath_iff.mpr ⟨_, _, _, _, shape, denied, endsApart, blank⟩
      simp [noModule word member] at path
  | dunder shape notEmpty wordChars =>
      exact dunder?_eq_none_iff.mp noDunder _ _ shape
        ⟨_, _, rfl, notEmpty, wordChars⟩
  | walrus shape => exact notAssigned (.inr ⟨_, _, shape⟩)
  | equals shape alone single =>
      refine notAssigned (.inl ⟨_, _, shape, ?_, single⟩)
      rwa [Option.or_none]

theorem denied?_eq_none_of_not_forbidden
    {text : List Char} (notForbidden : ¬ Forbidden text) :
    denied? text = none := by
  apply denied?_eq_none_iff.mpr
  refine ⟨?_, ?_, ?_, ?_, ?_, ?_⟩
  · intro c member
    apply Bool.eq_false_iff.mpr
    intro separates
    exact notForbidden
      (.separator member (by simpa [isSeparator, or_assoc] using separates))
  · intro c member
    apply Bool.eq_false_iff.mpr
    intro control
    obtain ⟨isControl, noTab⟩ : Text.isControl c = true ∧ c ≠ '\t' := by
      simpa [isForbiddenControl] using control
    exact notForbidden (.control member isControl noTab)
  · apply dunder?_eq_none_iff.mpr
    rintro before _ shape ⟨inner, after, rfl, notEmpty, wordChars⟩
    exact notForbidden (.dunder shape notEmpty wordChars)
  · intro word member denied
    obtain ⟨before, letters, after, shape, isDenied, endsApart, startsApart⟩ :=
      mem_deniedWords_iff.mp ⟨word, member, denied⟩
    exact notForbidden (.word shape isDenied endsApart startsApart)
  · intro word member
    apply Bool.eq_false_iff.mpr
    intro path
    obtain ⟨before, name, blanks, after, shape, denied, endsApart, blank⟩ :=
      exists_modulePath_iff.mp ⟨word, member, path⟩
    exact notForbidden (.modulePath shape denied endsApart blank)
  · apply Bool.eq_false_iff.mpr
    intro assigned
    rcases assignsAfter_iff.mp assigned with
      ⟨before, after, shape, alone, single⟩ | ⟨before, after, shape⟩
    · rw [Option.or_none] at alone
      exact notForbidden (.equals shape alone single)
    · exact notForbidden (.walrus shape)

theorem trim_ne_nil
    {text : List Char} (notBlank : ∃ c ∈ text, isBlank c = false) :
    trim text ≠ [] := by
  intro empty
  obtain ⟨c, member, solid⟩ := notBlank
  obtain ⟨lead, trail, parts, leadBlank, trailBlank⟩ :=
    exists_eq_append_trim text
  rw [empty, List.nil_append] at parts
  rw [parts] at member
  rcases List.mem_append.mp member with inLead | inTrail
  · simp [leadBlank c inLead] at solid
  · simp [trailBlank c inTrail] at solid

/-- A condition that is not blank is refused by the deny-list, before all other
checks and with a problem of its own, exactly when something forbidden stands
in it. -/
theorem check_eq_denial_iff_forbidden {condition : String}
    (notBlank : ∃ c ∈ condition.toList, isBlank c = false) :
    Forbidden condition.toList ↔
      ∃ problem, denied? condition.toList = some problem ∧
        check condition = .error problem ∧
        problem.isDenial = true := by
  have occupied : (trim condition.toList).isEmpty = false := by
    simpa using trim_ne_nil notBlank
  constructor
  · intro forbidden
    cases denied : denied? condition.toList with
    | none => exact absurd forbidden (not_forbidden_of_denied?_eq_none denied)
    | some problem =>
        refine ⟨problem, rfl, ?_, isDenial_of_denied? denied⟩
        simp [check, occupied, denied]
  · rintro ⟨problem, denied, _, _⟩
    apply Classical.byContradiction
    intro notForbidden
    rw [denied?_eq_none_of_not_forbidden notForbidden] at denied
    cases denied

/-- A path into a module is found in a literal, behind a blank of another
script. -/
theorem check_eq_denial_iff_forbidden_quotedModule :
    Forbidden "'io\u3000.x' in \x7b\x7bnames\x7d\x7d".toList ∧
      ∃ problem,
        denied? "'io\u3000.x' in \x7b\x7bnames\x7d\x7d".toList = some problem ∧
        check "'io\u3000.x' in \x7b\x7bnames\x7d\x7d" = .error problem ∧
        problem.isDenial = true := by
  have notBlank : ∃ c ∈ "'io\u3000.x' in \x7b\x7bnames\x7d\x7d".toList,
      isBlank c = false :=
    ⟨'\'', by simp, rfl⟩
  have shape : "'io\u3000.x' in \x7b\x7bnames\x7d\x7d".toList =
      ['\''] ++
        (['i', 'o'] ++
          (['\u3000'] ++ '.' :: "x' in \x7b\x7bnames\x7d\x7d".toList)) := by
    simp
  have endsApart : EndsApart ['\''] := by
    rintro c ⟨⟩
    decide
  have blank : ∀ c ∈ ['\u3000'], isBlank c = true := by
    simp only [List.forall_mem_singleton]
    decide
  have forbidden := Forbidden.modulePath shape (by decide) endsApart blank
  exact ⟨forbidden, (check_eq_denial_iff_forbidden notBlank).mp forbidden⟩

end Workflow.Condition
