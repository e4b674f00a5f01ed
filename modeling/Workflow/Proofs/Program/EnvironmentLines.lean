import Workflow.Proofs.Program.CallReading
import Workflow.Proofs.Program.TreeCode

/-!
# Lines that read the environment

A line of a program is read character by character, without what it was written
from: strings and comments are passed over, and wherever code calls
`os.environ.get` the string that it is given is noted.  A piece of text shows
some reads when it adds them to those of what follows.  Names and strings show
none, whatever is in them, and the expression that reads a credential shows
one.
-/

namespace Workflow.Program.Environment

/-- Characters of names with dots between them. -/
def isPart (c : Char) : Bool :=
  Text.isWordChar c || c == '.'

/-- Where a character stands: in code, right behind a name or not, in a comment
or in a string. -/
inductive Place where
  | code (glued : Bool)
  | comment
  | quoted (quote : Char)
  | escaped (quote : Char)

/-- The place behind a character. -/
def Place.behind (place : Place) (c : Char) : Place :=
  match place with
  | .code _ =>
      if c = '#' then .comment
      else if c = '"' ∨ c = '\'' then .quoted c
      else .code (isPart c)
  | .comment => .comment
  | .quoted quote =>
      if c = '\\' then .escaped quote
      else if c = quote then .code (isPart c)
      else .quoted quote
  | .escaped quote => .quoted quote

/-- The string that a call is given, when it is given one and nothing else, and
what follows the call. -/
def argument? : List Char → Option (String × List Char)
  | '(' :: '"' :: inner =>
      match Lexeme.unescape? [] inner with
      | some (value, ')' :: rest) => some (String.ofList value, rest)
      | _ => none
  | _ => none

/-- The read that begins right here, with its variable unless that is no plain
string. -/
def readAt (place : Place) (text : List Char) : List (Option String) :=
  match place with
  | .code false =>
      if text.takeWhile isPart = "os.environ.get".toList then
        [(argument? (text.dropWhile isPart)).map Prod.fst]
      else []
  | _ => []

/-- The reads in a text that begins at a place. -/
def readsFrom (place : Place) : List Char → List (Option String)
  | [] => []
  | c :: rest => readAt place (c :: rest) ++ readsFrom (place.behind c) rest

/-- The reads in a line. -/
def reads (line : List Char) : List (Option String) :=
  readsFrom (.code false) line

theorem exists_of_readAt
    {place : Place} {text : List Char} (found : readAt place text ≠ []) :
    place = .code false ∧ ∃ rest, text = 'o' :: 's' :: '.' :: rest := by
  unfold readAt at found
  split at found
  · refine ⟨rfl, ?_⟩
    split at found
    · rename_i called
      obtain ⟨rest, shape⟩ := List.takeWhile_prefix isPart (l := text)
      rw [called] at shape
      exact ⟨"environ.get".toList ++ rest, shape.symm⟩
    · exact absurd rfl found
  · exact absurd rfl found

theorem readAt_eq_nil
    {place : Place} {c : Char} {rest : List Char}
    (other : c = 'o' → ∀ more, rest ≠ 's' :: more) :
    readAt place (c :: rest) = [] := by
  by_contra found
  obtain ⟨_, more, shape⟩ := exists_of_readAt found
  obtain ⟨isStart, rfl⟩ := List.cons.inj shape
  exact other isStart _ rfl

theorem behind_code {glued : Bool} {c : Char} (plain : c ∉ ['#', '"', '\'']) :
    (Place.code glued).behind c = .code (isPart c) := by
  simp only [List.mem_cons, List.not_mem_nil, or_false, not_or] at plain
  simp [Place.behind, plain]

theorem notMem_of_isPart {c : Char} (part : isPart c = true) :
    c ∉ ['#', '"', '\''] := by
  intro member
  simp only [List.mem_cons, List.not_mem_nil, or_false] at member
  rcases member with rfl | rfl | rfl
  all_goals exact absurd part (by decide)

/-- A text that does not go on with a name. -/
def Apart (rest : List Char) : Prop :=
  ∀ c ∈ rest.head?, isPart c = false

theorem apart_cons {c : Char} (sign : isPart c = false) (rest : List Char) :
    Apart (c :: rest) := by
  intro first isFirst
  obtain rfl : c = first := Option.some.inj isFirst
  exact sign

theorem readsFrom_glued
    {rest : List Char} (apart : Apart rest) (glued : Bool) :
    readsFrom (.code glued) rest = readsFrom (.code false) rest := by
  cases rest with
  | nil => rfl
  | cons c rest =>
      have nothing : ∀ place, readAt place (c :: rest) = [] := by
        intro place
        apply readAt_eq_nil
        rintro rfl
        exact absurd (apart _ rfl) (by decide)
      rw [readsFrom, readsFrom, nothing, nothing]
      rfl

/-- Inside of a name no read begins. -/
theorem readsFrom_run
    {run : List Char} (parts : ∀ c ∈ run, isPart c = true) (rest : List Char) :
    readsFrom (.code true) (run ++ rest) = readsFrom (.code true) rest := by
  induction run with
  | nil => rfl
  | cons c run induction =>
      obtain ⟨part, others⟩ := List.forall_mem_cons.mp parts
      rw [List.cons_append, readsFrom, behind_code (notMem_of_isPart part),
        part, induction others]
      rfl

/-- Texts without strings and comments in which no name goes on with `os`. -/
def isQuiet : List Char → Bool
  | [] => true
  | c :: rest =>
      !(['#', '"', '\''].contains c) &&
      !(c == 'o' && rest.head? == some 's') && isQuiet rest

theorem readsFrom_quiet
    {text rest : List Char} (quiet : isQuiet text = true) (apart : Apart rest)
    (glued : Bool) :
    readsFrom (.code glued) (text ++ rest) = readsFrom (.code false) rest := by
  induction text generalizing glued with
  | nil => exact readsFrom_glued apart glued
  | cons c text induction =>
      simp only [isQuiet, Bool.and_eq_true, Bool.not_eq_true',
        List.contains_eq_mem, decide_eq_false_iff_not] at quiet
      obtain ⟨⟨plain, noStart⟩, later⟩ := quiet
      have nothing : readAt (.code glued) (c :: (text ++ rest)) = [] := by
        apply readAt_eq_nil
        rintro rfl more shape
        cases text with
        | nil =>
            exact absurd (apart 's' (congrArg List.head? shape)) (by decide)
        | cons d text =>
            obtain rfl : d = 's' := (List.cons.inj shape).1
            exact absurd noStart (by simp)
      rw [List.cons_append, readsFrom, nothing, behind_code plain,
        List.nil_append, induction later]

theorem isQuiet_of_forall
    {text : List Char} (plain : ∀ c ∈ text, c ∉ ['o', '#', '"', '\'']) :
    isQuiet text = true := by
  induction text with
  | nil => rfl
  | cons c text induction =>
      obtain ⟨here, later⟩ := List.forall_mem_cons.mp plain
      simp only [List.mem_cons, List.not_mem_nil, or_false, not_or] at here
      simp [isQuiet, here, induction later]

/-- The text adds these reads to those of any text behind it that does not go
on with a name. -/
def Shows (text : List Char) (found : List (Option String)) : Prop :=
  ∀ rest : List Char, Apart rest →
    readsFrom (.code false) (text ++ rest) =
      found ++ readsFrom (.code false) rest

/-- The text adds these reads to those of any text behind it. -/
def Closes (text : List Char) (found : List (Option String)) : Prop :=
  ∀ rest : List Char,
    readsFrom (.code false) (text ++ rest) =
      found ++ readsFrom (.code false) rest

theorem Closes.shows {text : List Char} {found : List (Option String)}
    (closes : Closes text found) : Shows text found :=
  fun rest _ => closes rest

theorem Shows.reads
    {text : List Char} {found : List (Option String)}
    (shows : Shows text found) :
    Environment.reads text = found := by
  have alone := shows [] (by simp [Apart])
  rwa [List.append_nil, readsFrom, List.append_nil] at alone

theorem closes_nil : Closes [] [] :=
  fun _ => rfl

theorem Closes.reads {text : List Char} {found : List (Option String)}
    (closes : Closes text found) : Environment.reads text = found :=
  closes.shows.reads

theorem Closes.append
    {left right : List Char} {ofLeft ofRight : List (Option String)}
    (first : Closes left ofLeft) (second : Closes right ofRight) :
    Closes (left ++ right) (ofLeft ++ ofRight) := by
  intro rest
  rw [List.append_assoc, first, second, List.append_assoc]

theorem Closes.append_shows
    {left right : List Char} {ofLeft ofRight : List (Option String)}
    (first : Closes left ofLeft) (second : Shows right ofRight) :
    Shows (left ++ right) (ofLeft ++ ofRight) := by
  intro rest apart
  rw [List.append_assoc, first, second rest apart, List.append_assoc]

theorem Shows.append_closes {left right : List Char} {c : Char}
    {ofLeft ofRight : List (Option String)} (first : Shows left ofLeft)
    (second : Closes (c :: right) ofRight) (sign : isPart c = false) :
    Closes (left ++ c :: right) (ofLeft ++ ofRight) := by
  intro rest
  rw [List.append_assoc,
    first (c :: right ++ rest) (apart_cons sign (right ++ rest)), second,
    List.append_assoc]

section Silent

variable {left right : List Char} {c : Char} {found : List (Option String)}

theorem Closes.before (first : Closes left []) (second : Closes right found) :
    Closes (left ++ right) found :=
  first.append second

theorem Closes.before_shows
    (first : Closes left []) (second : Shows right found) :
    Shows (left ++ right) found :=
  first.append_shows second

theorem Shows.before
    (first : Shows left []) (second : Closes (c :: right) found)
    (sign : isPart c = false) :
    Closes (left ++ c :: right) found :=
  first.append_closes second sign

theorem Shows.behind
    (first : Shows left found) (second : Closes (c :: right) [])
    (sign : isPart c = false) :
    Closes (left ++ c :: right) found := by
  have both := first.append_closes second sign
  rwa [List.append_nil] at both

end Silent

theorem shows_quiet {text : List Char} (quiet : isQuiet text = true) :
    Shows text [] :=
  fun _ apart => readsFrom_quiet quiet apart false

/-- Signs that neither belong to a name nor begin a string or a comment. -/
def isSign (c : Char) : Bool :=
  !isPart c && !(['#', '"', '\''].contains c)

theorem closes_sign {c : Char} (sign : isSign c = true) : Closes [c] [] := by
  simp only [isSign, Bool.and_eq_true, Bool.not_eq_true', List.contains_eq_mem,
    decide_eq_false_iff_not] at sign
  intro rest
  have nothing : readAt (.code false) (c :: rest) = [] := by
    apply readAt_eq_nil
    rintro rfl
    exact absurd sign.1 (by decide)
  rw [List.singleton_append, readsFrom, nothing, behind_code sign.2, sign.1]

theorem not_isPart_of_isSign {c : Char} (sign : isSign c = true) :
    isPart c = false := by
  simp only [isSign, Bool.and_eq_true, Bool.not_eq_true'] at sign
  exact sign.1

/-- A text in brackets. -/
theorem Shows.enclosed
    {opening closing : Char} {text : List Char} {found : List (Option String)}
    (shows : Shows text found) (opens : isSign opening = true)
    (closes : isSign closing = true) :
    Closes (opening :: (text ++ [closing])) found := by
  exact (closes_sign opens).before
    (shows.behind (closes_sign closes) (not_isPart_of_isSign closes))

/-- Quiet texts that end with a sign. -/
def isFront (text : List Char) : Bool :=
  isQuiet text.dropLast && text.getLast?.any isSign

theorem closes_front {text : List Char} (front : isFront text = true) :
    Closes text [] := by
  obtain ⟨quiet, last⟩ := Bool.and_eq_true_iff.mp front
  obtain ⟨c, isLast, sign⟩ := (Option.any_eq_true _ _).mp last
  rw [← List.dropLast_append_getLast? c isLast]
  exact (shows_quiet quiet).before (closes_sign sign)
    (not_isPart_of_isSign sign)

/-- A name shows nothing unless it is the call itself. -/
theorem shows_word {run : List Char} (parts : ∀ c ∈ run, isPart c = true)
    (other : run ≠ "os.environ.get".toList) : Shows run [] := by
  intro rest apart
  cases run with
  | nil => rfl
  | cons c run =>
      obtain ⟨part, others⟩ := List.forall_mem_cons.mp parts
      have whole : (c :: run ++ rest).takeWhile isPart = c :: run := by
        rw [List.takeWhile_append_of_pos parts]
        cases rest with
        | nil => simp
        | cons d rest => simp [apart d rfl]
      have nothing : readAt (.code false) (c :: (run ++ rest)) = [] := by
        rw [List.cons_append] at whole
        simp only [readAt, whole, if_neg other]
      rw [List.cons_append, readsFrom, nothing,
        behind_code (notMem_of_isPart part), part, readsFrom_run others,
        readsFrom_glued apart]

theorem isPart_of_isFieldChar
    {c : Char} (fieldChar : Reference.isFieldChar c = true) :
    isPart c = true := by
  have ascii : c.isAlphanum = true ∨ c = '_' := by
    simpa [Reference.isFieldChar] using fieldChar
  rcases ascii with alphanumeric | rfl
  · simp [isPart, Text.isWordChar, alphanumeric]
  · decide

/-- Names without dots are never the call. -/
theorem shows_name
    {name : List Char}
    (fieldChars : ∀ c ∈ name, Reference.isFieldChar c = true) :
    Shows name [] := by
  apply shows_word
  · intro c member
    exact isPart_of_isFieldChar (fieldChars c member)
  · rintro rfl
    exact absurd (fieldChars '.' (by decide)) (by decide)

theorem readsFrom_quoted
    {c : Char} {rest : List Char} (noQuote : c ≠ '"') (noEscape : c ≠ '\\') :
    readsFrom (.quoted '"') (c :: rest) = readsFrom (.quoted '"') rest := by
  simp [readsFrom, readAt, Place.behind, noQuote, noEscape]

theorem readsFrom_escaped (c : Char) (rest : List Char) :
    readsFrom (.quoted '"') ('\\' :: c :: rest) =
      readsFrom (.quoted '"') rest :=
  rfl

/-- A written character keeps its reader inside of the string. -/
theorem readsFrom_escape (c : Char) (rest : List Char) :
    readsFrom (.quoted '"') (Text.escape c ++ rest) =
      readsFrom (.quoted '"') rest := by
  rcases SelfCheck.escape_cases c with
    ⟨letter, _, shape⟩ | ⟨high, low, highSmall, lowSmall, shape⟩
      | ⟨shape, noQuote, noEscape, _⟩
  · rw [shape]
    exact readsFrom_escaped letter rest
  · obtain ⟨highQuote, highEscape, _⟩ := SelfCheck.hexDigit_inert highSmall
    obtain ⟨lowQuote, lowEscape, _⟩ := SelfCheck.hexDigit_inert lowSmall
    simp only [shape, List.cons_append, List.nil_append]
    rw [readsFrom_escaped, readsFrom_quoted (by decide) (by decide),
      readsFrom_quoted (by decide) (by decide),
      readsFrom_quoted highQuote highEscape,
      readsFrom_quoted lowQuote lowEscape]
  · rw [shape]
    exact readsFrom_quoted noQuote noEscape

/-- Strings show nothing, whatever they say. -/
theorem closes_quoted (text : String) :
    Closes (Text.quoted text).toList [] := by
  intro rest
  have inside : ∀ inner : List Char,
      readsFrom (.quoted '"') (inner.flatMap Text.escape ++ '"' :: rest) =
        readsFrom (.code false) rest := by
    intro inner
    induction inner with
    | nil => rfl
    | cons c inner induction =>
        rw [List.flatMap_cons, List.append_assoc, readsFrom_escape, induction]
  have opened : readAt (.code false)
      ('"' :: (text.toList.flatMap Text.escape ++ '"' :: rest)) = [] :=
    readAt_eq_nil (by simp)
  rw [Text.quoted, String.toList_ofList, Text.quotedChars, List.cons_append,
    List.append_assoc, List.singleton_append, readsFrom, opened]
  exact inside text.toList

theorem argument?_quoted (text : String) (rest : List Char) :
    argument? ('(' :: ((Text.quoted text).toList ++ ')' :: rest)) =
      some (text, rest) := by
  have inside := Lexeme.unescape?_flatMap_escape text.toList (')' :: rest) []
  rw [Text.quoted, String.toList_ofList, Text.quotedChars, List.cons_append,
    List.append_assoc, List.singleton_append, argument?, inside]
  simp

theorem isPart_of_mem_call : ∀ c ∈ "os.environ.get".toList, isPart c = true :=
  List.all_eq_true.mp (by decide)

theorem readAt_call (text : String) (rest : List Char) :
    readAt (.code false)
        ("os.environ.get".toList ++ '(' ::
          ((Text.quoted text).toList ++ ')' :: rest)) =
      [some text] := by
  have bracket : isPart '(' = false := by decide
  simp only [readAt, List.takeWhile_append_of_pos isPart_of_mem_call,
    List.dropWhile_append_of_pos isPart_of_mem_call, List.takeWhile_cons,
    List.dropWhile_cons,
    bracket, Bool.false_eq_true, if_false, List.append_nil, if_true,
    argument?_quoted,
    Option.map_some]

theorem closes_environmentRead (name : String) :
    Closes (environmentRead name).toList
      [some (environmentVariable name)] := by
  intro rest
  have behindCall := (closes_quoted (environmentVariable name)).shows.enclosed
    (by decide : isSign '(' = true) (by decide : isSign ')' = true)
  have call : "os.environ.get".toList = 'o' :: "s.environ.get".toList := rfl
  have found := readAt_call (environmentVariable name) rest
  have later : ∀ c ∈ "s.environ.get".toList, isPart c = true := fun c member =>
    isPart_of_mem_call c (call ▸ List.mem_cons_of_mem 'o' member)
  have start : isPart 'o' = true :=
    isPart_of_mem_call 'o' (call ▸ List.mem_cons_self)
  have remaining :
      ∀ more, readsFrom (.code true) ("s.environ.get".toList ++ '(' :: more) =
        readsFrom (.code false) ('(' :: more) := by
    intro more
    rw [readsFrom_run later, readsFrom_glued (apart_cons (by decide) more)]
  rw [environmentRead_toList, List.append_assoc, List.cons_append,
    List.append_assoc, List.singleton_append]
  rw [call, List.cons_append] at found ⊢
  rw [readsFrom, found, behind_code (notMem_of_isPart start), start, remaining]
  have closed := behindCall rest
  rw [List.cons_append, List.append_assoc, List.singleton_append] at closed
  rw [closed]
  rfl

end Workflow.Program.Environment
