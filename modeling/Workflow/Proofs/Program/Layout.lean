import Workflow.Program.Code
import Workflow.Proofs.Program.Lexing
import Workflow.Proofs.Text.Pieces

/-!
# Layout of programs

The lines of code that is written out, and what the self-check asks of them:
that each can be read, that statements are indented in steps of four, and that
a line that opens a block has a body.  `Flow` collects this for a run of lines;
runs are put together one behind the other and under the header of a block.
-/

namespace Workflow.Program

open SelfCheck

namespace Code

mutual

/-- The lines of a piece of code at a level. -/
def lines (level : Nat) : Code → List (List Char)
  | .line text => [(indentation level).toList ++ text.toList]
  | .blank => [[]]
  | .block header body =>
      ((indentation level).toList ++ header.toList) ::
        linesAll (level + 1) body

def linesAll (level : Nat) : List Code → List (List Char)
  | [] => []
  | code :: rest => lines level code ++ linesAll level rest

end

theorem linesAll_append (level : Nat) (codes more : List Code) :
    linesAll level (codes ++ more) =
      linesAll level codes ++ linesAll level more := by
  induction codes with
  | nil => rfl
  | cons code codes induction => simp [linesAll, induction]

/-- The text is found again as a line. -/
def Tidy (text : List Char) : Prop :=
  '\n' ∉ text ∧ text.getLast? ≠ some '\r'

theorem lines_renderLine
    {level : Nat} {text : String}
    (tidy : Tidy ((indentation level).toList ++ text.toList))
    (rest : List Char) :
    Text.lines ((renderLine level text).toList ++ rest) =
      ((indentation level).toList ++ text.toList) :: Text.lines rest := by
  have shape : (renderLine level text).toList ++ rest =
      ((indentation level).toList ++ text.toList) ++ '\n' :: rest := by
    simp [renderLine]
  rw [shape, Text.lines_append tidy.1 tidy.2]

mutual

theorem lines_render
    (level : Nat) (code : Code) (tidy : ∀ text ∈ lines level code, Tidy text)
    (rest : List Char) :
    Text.lines ((render level code).toList ++ rest) =
      lines level code ++ Text.lines rest := by
  match code with
  | .line text => exact lines_renderLine (tidy _ List.mem_cons_self) rest
  | .blank =>
      have found := Text.lines_append (show '\n' ∉ [] by simp) (by simp) rest
      simpa [render, lines] using found
  | .block header body =>
      obtain ⟨ofHeader, ofBody⟩ := List.forall_mem_cons.mp tidy
      rw [render, String.toList_append, List.append_assoc,
        lines_renderLine ofHeader, lines_renderAll (level + 1) body ofBody,
        lines, List.cons_append]

theorem lines_renderAll (level : Nat) (codes : List Code)
    (tidy : ∀ text ∈ linesAll level codes, Tidy text) (rest : List Char) :
    Text.lines ((renderAll level codes).toList ++ rest) =
      linesAll level codes ++ Text.lines rest := by
  match codes with
  | [] => rfl
  | code :: codes =>
      obtain ⟨ofCode, ofCodes⟩ := List.forall_mem_append.mp tidy
      rw [renderAll, String.toList_append, List.append_assoc,
        lines_render level code ofCode, lines_renderAll level codes ofCodes,
        linesAll, List.append_assoc]

end

end Code

/-- A line that can be read by itself, with no blanks around it. -/
structure StandsAlone (text : List Char) : Prop where
  inline : Inline text
  reads : ∀ number, readRest number ⟨.code, []⟩ text = .ok ⟨.code, []⟩
  starts : ∃ c ∈ text.head?, Text.isBlank c = false
  ends : ∃ c ∈ text.getLast?, Text.isBlank c = false

def margin (level : Nat) : List Char :=
  List.replicate (4 * level) ' '

theorem margin_succ (level : Nat) : margin level <+: margin (level + 1) := by
  refine ⟨List.replicate 4 ' ', ?_⟩
  rw [margin, margin, List.replicate_append_replicate, Nat.mul_add_one]

@[simp] theorem indentation_toList (level : Nat) :
    (Code.indentation level).toList = margin level := by
  simp [Code.indentation, margin]

namespace Code

section Gather

variable {α : Type} (read : List Char → List α)

mutual

/-- What is read off the lines of a piece of code one by one, their margins
aside. -/
def gather : Code → List α
  | .line text => read text.toList
  | .blank => []
  | .block header body => read header.toList ++ gatherAll body

def gatherAll : List Code → List α
  | [] => []
  | code :: rest => gather code ++ gatherAll rest

end

theorem gatherAll_append (codes more : List Code) :
    gatherAll read (codes ++ more) =
      gatherAll read codes ++ gatherAll read more := by
  induction codes with
  | nil => rfl
  | cons code codes induction =>
      rw [List.cons_append, gatherAll, gatherAll, induction, List.append_assoc]

mutual

theorem flatMap_lines
    (ofBlank : read [] = [])
    (ofMargin : ∀ level line, read (margin level ++ line) = read line)
    (level : Nat) (code : Code) :
    (lines level code).flatMap read = gather read code := by
  match code with
  | .line text =>
      rw [lines, indentation_toList, List.flatMap_singleton, ofMargin, gather]
  | .blank => rw [lines, List.flatMap_singleton, ofBlank, gather]
  | .block header body =>
      rw [lines, indentation_toList, List.flatMap_cons, ofMargin, gather,
        flatMap_linesAll ofBlank ofMargin (level + 1) body]

theorem flatMap_linesAll
    (ofBlank : read [] = [])
    (ofMargin : ∀ level line, read (margin level ++ line) = read line)
    (level : Nat) (codes : List Code) :
    (linesAll level codes).flatMap read = gatherAll read codes := by
  match codes with
  | [] => rfl
  | code :: rest =>
      rw [linesAll, List.flatMap_append,
        flatMap_lines ofBlank ofMargin level code,
        flatMap_linesAll ofBlank ofMargin level rest, gatherAll]

end

end Gather

end Code

theorem sealed_margin (level : Nat) : Sealed (margin level) := by
  apply sealed_of_isPlain
  apply List.all_eq_true.mpr
  intro c member
  rw [List.eq_of_mem_replicate member]
  rfl

variable {level : Nat} {text : List Char}

theorem readLine_eq_readRest
    {number : Nat} {lexer : Lexer} (noNul : '\x00' ∉ text) :
    readLine number lexer text = readRest number lexer text := by
  have contains : text.contains '\x00' = false := by simpa using noNul
  simp only [readLine, contains]
  rfl

theorem StandsAlone.readLine (alone : StandsAlone text) (level number : Nat) :
    readLine number ⟨.code, []⟩ (margin level ++ text) = .ok ⟨.code, []⟩ := by
  have inline := (sealed_margin level).inline.append alone.inline
  rw [readLine_eq_readRest fun member => (inline _ member).2 rfl,
    (sealed_margin level).reads, alone.reads]

theorem trimEnd_of_getLast? {c : Char} (last : text.getLast? = some c)
    (notBlank : Text.isBlank c = false) : Text.trimEnd text = text := by
  rw [List.getLast?_eq_head?_reverse] at last
  cases shape : text.reverse with
  | nil => simp [shape] at last
  | cons d others =>
      obtain rfl : d = c := by simpa [shape] using last
      rw [Text.trimEnd, shape, List.dropWhile_cons_of_neg (by simp [notBlank]),
        ← shape, List.reverse_reverse]

theorem StandsAlone.getLast? (alone : StandsAlone text) (level : Nat) :
    (margin level ++ text).getLast? = text.getLast? := by
  obtain ⟨c, last, _⟩ := alone.ends
  rw [List.getLast?_append, last]
  rfl

theorem StandsAlone.tidy (alone : StandsAlone text) (level : Nat) :
    Code.Tidy (margin level ++ text) := by
  have inline := (sealed_margin level).inline.append alone.inline
  refine ⟨fun member => (inline _ member).1 rfl, ?_⟩
  obtain ⟨c, last, notBlank⟩ := alone.ends
  rw [alone.getLast?, last]
  rintro ⟨⟩
  exact absurd notBlank (by decide)

/-- A line that stands alone and has no colon at its end opens no block. -/
theorem StandsAlone.opensBlock
    (alone : StandsAlone text) (level : Nat)
    (noColon : text.getLast? ≠ some ':') :
    opensBlock (margin level ++ text) = false := by
  obtain ⟨c, last, notBlank⟩ := alone.ends
  have lastAtLevel := (alone.getLast? level).trans last
  have different : c ≠ ':' := by
    rintro rfl
    exact noColon last
  simp [SelfCheck.opensBlock, trimEnd_of_getLast? lastAtLevel notBlank,
    lastAtLevel, different]

theorem takeWhile_margin
    (p : Char → Bool) (blank : p ' ' = true) {c : Char} {rest : List Char}
    (stops : p c = false) (level : Nat) :
    (margin level ++ c :: rest).takeWhile p = margin level := by
  have all : ∀ d ∈ margin level, p d = true := by
    intro d member
    rw [List.eq_of_mem_replicate member, blank]
  rw [List.takeWhile_append_of_pos all,
    List.takeWhile_cons_of_neg (by simp [stops]), List.append_nil]

theorem StandsAlone.indentation (alone : StandsAlone text) (level : Nat) :
    (margin level ++ text).takeWhile Text.isBlank = margin level ∧
      indentWidth (margin level ++ text) = 4 * level := by
  obtain ⟨c, head, notBlank⟩ := alone.starts
  obtain ⟨rest, rfl⟩ : ∃ rest, text = c :: rest :=
    List.head?_eq_some_iff.mp head
  have noSpace : (c == ' ') = false := by
    rw [beq_eq_false_iff_ne]
    rintro rfl
    exact absurd notBlank (by decide)
  refine ⟨takeWhile_margin Text.isBlank rfl notBlank level, ?_⟩
  rw [indentWidth, takeWhile_margin (· == ' ') rfl noSpace level, margin,
    List.length_replicate]

/-- Whether there is something on a line. -/
def isSolid (text : List Char) : Bool :=
  !(Text.trim text).isEmpty

theorem StandsAlone.isSolid (alone : StandsAlone text) (level : Nat) :
    isSolid (margin level ++ text) = true := by
  obtain ⟨c, head, notBlank⟩ := alone.starts
  obtain ⟨rest, rfl⟩ : ∃ rest, text = c :: rest :=
    List.head?_eq_some_iff.mp head
  obtain ⟨lead, trail, parts, leadBlank, trailBlank⟩ :=
    Text.exists_eq_append_trim (margin level ++ c :: rest)
  cases trimmed : Text.trim (margin level ++ c :: rest) with
  | cons first others => simp [Program.isSolid, trimmed]
  | nil =>
      rw [trimmed, List.nil_append] at parts
      have member : c ∈ lead ++ trail := parts ▸ by simp
      have blank : Text.isBlank c = true := by
        rcases List.mem_append.mp member with inLead | inTrail
        · exact leadBlank c inLead
        · exact trailBlank c inTrail
      simp [blank] at notBlank

/-- The lines can be read from outside of everything to outside of everything;
given are those among them that start a statement. -/
def Reads (lines statements : List (List Char)) : Prop :=
  ∀ number, ∃ read,
    readLines number ⟨.code, []⟩ lines = .ok (read, ⟨.code, []⟩) ∧
    (read.filter Line.startsStatement).map Line.text = statements

/-- Statements are indented with blanks in steps of four, and one that opens a
block has a body. -/
def isIndented : List (List Char) → Bool
  | [] => true
  | text :: rest =>
      (text.takeWhile Text.isBlank).all (· == ' ') &&
      indentWidth text % 4 == 0 &&
      (!opensBlock text ||
        rest.head?.any (indentWidth · == indentWidth text + 4)) &&
      isIndented rest

/-- A run of lines at a level that the self-check has nothing to say
against. -/
structure Flow (level : Nat) (lines statements : List (List Char)) : Prop where
  tidy : ∀ text ∈ lines, Code.Tidy text
  reads : Reads lines statements
  indented : isIndented (statements.filter isSolid) = true
  first : ∀ text ∈ (statements.filter isSolid).head?,
    indentWidth text = 4 * level
  margin : ∀ text ∈ statements, text = [] ∨ margin level <+: text

section

variable {lines more statements others : List (List Char)}

theorem readLines_append
    {number : Nat} {lexer middle final : Lexer} {read later : List Line}
    (first : readLines number lexer lines = .ok (read, middle))
    (second : readLines (number + lines.length) middle more =
      .ok (later, final)) :
    readLines number lexer (lines ++ more) = .ok (read ++ later, final) := by
  induction lines generalizing number lexer read with
  | nil =>
      cases first
      exact second
  | cons text rest induction =>
      obtain ⟨next, readFirst, first⟩ := bind_eq_ok_iff.mp first
      obtain ⟨⟨behind, reached⟩, readRest, first⟩ := bind_eq_ok_iff.mp first
      cases first
      have same :
          number + (text :: rest).length = number + 1 + rest.length := by
        rw [List.length_cons]
        omega
      rw [same] at second
      have both := induction readRest second
      simp only [List.cons_append, readLines, readFirst, both, ok_bind]
      rfl

theorem reads_nil : Reads [] [] :=
  fun _ => ⟨[], rfl, rfl⟩

theorem Reads.append
    (first : Reads lines statements) (second : Reads more others) :
    Reads (lines ++ more) (statements ++ others) := by
  intro number
  obtain ⟨read, reached, starting⟩ := first number
  obtain ⟨later, final, startingLater⟩ := second (number + lines.length)
  refine ⟨read ++ later, readLines_append reached final, ?_⟩
  rw [List.filter_append, List.map_append, starting, startingLater]

theorem reads_singleton
    (reads : ∀ number, readLine number ⟨.code, []⟩ text = .ok ⟨.code, []⟩) :
    Reads [text] [text] := by
  intro number
  refine ⟨[⟨number, text, true⟩], ?_, rfl⟩
  simp only [readLines, reads number, ok_bind]
  rfl

theorem isIndented_append
    {first second : List (List Char)} (left : isIndented first = true)
    (right : isIndented second = true) :
    isIndented (first ++ second) = true := by
  induction first with
  | nil => exact right
  | cons text rest induction =>
      simp only [isIndented, List.cons_append, Bool.and_eq_true] at left ⊢
      obtain ⟨⟨blanks, opens⟩, restIndented⟩ := left
      refine ⟨⟨blanks, ?_⟩, induction restIndented⟩
      cases rest with
      | nil =>
          have noBlock : (!SelfCheck.opensBlock text) = true := by
            simpa using opens
          simp [noBlock]
      | cons next rest => exact opens

theorem Flow.append
    (first : Flow level lines statements) (second : Flow level more others) :
    Flow level (lines ++ more) (statements ++ others) where
  tidy := List.forall_mem_append.mpr ⟨first.tidy, second.tidy⟩
  reads := first.reads.append second.reads
  indented := by
    rw [List.filter_append]
    exact isIndented_append first.indented second.indented
  first := by
    intro text head
    rw [List.filter_append, List.head?_append] at head
    cases found : (statements.filter isSolid).head? with
    | none =>
        rw [found] at head
        exact second.first text head
    | some other =>
        rw [found] at head
        obtain rfl : other = text := by simpa using head
        exact first.first other found
  margin := List.forall_mem_append.mpr ⟨first.margin, second.margin⟩

theorem flow_nil (level : Nat) : Flow level [] [] :=
  ⟨nofun, reads_nil, rfl, nofun, nofun⟩

theorem flow_blank (level : Nat) : Flow level [[]] [[]] where
  tidy := by simp [Code.Tidy]
  reads := reads_singleton fun _ => rfl
  indented := rfl
  first := nofun
  margin := by simp

theorem flow_line {text : String} (alone : StandsAlone text.toList)
    (noColon : text.toList.getLast? ≠ some ':') (level : Nat) :
    Flow level (Code.lines level (.line text))
      (Code.lines level (.line text)) := by
  obtain ⟨blanks, width⟩ := alone.indentation level
  have lines :
      Code.lines level (.line text) = [margin level ++ text.toList] := by
    simp [Code.lines]
  rw [lines]
  exact {
    tidy := by simpa using alone.tidy level
    reads := reads_singleton (alone.readLine level)
    indented := by
      have allSpaces : (margin level).all (· == ' ') = true := by
        simp [Program.margin]
      have aligned : 4 * level % 4 = 0 := Nat.mul_mod_right 4 level
      simp [alone.isSolid level, isIndented, blanks, width, allSpaces, aligned,
        alone.opensBlock level noColon]
    first := by simpa [alone.isSolid level] using width
    margin := by simp }

/-- A header with a body one level deeper. -/
theorem flow_block
    {header : String} {body : List Code} (alone : StandsAlone header.toList)
    (level : Nat)
    (flow : Flow (level + 1) (Code.linesAll (level + 1) body) statements)
    (notEmpty : statements.filter isSolid ≠ []) :
    Flow level (Code.lines level (.block header body))
      ((margin level ++ header.toList) :: statements) := by
  obtain ⟨blanks, width⟩ := alone.indentation level
  obtain ⟨first, rest, shape⟩ := List.exists_cons_of_ne_nil notEmpty
  have lines : Code.lines level (.block header body) =
      [margin level ++ header.toList] ++ Code.linesAll (level + 1) body := by
    simp [Code.lines]
  have deeper : indentWidth first = 4 * level + 4 :=
    flow.first first (by rw [shape]; rfl)
  rw [lines]
  exact {
    tidy :=
      List.forall_mem_append.mpr ⟨by simpa using alone.tidy level, flow.tidy⟩
    reads := (reads_singleton (alone.readLine level)).append flow.reads
    indented := by
      have allSpaces : (margin level).all (· == ' ') = true := by
        simp [Program.margin]
      have aligned : 4 * level % 4 = 0 := Nat.mul_mod_right 4 level
      -- the header looks at the first solid line of the body only, which
      -- stands one step deeper
      have body := flow.indented
      rw [shape] at body
      rw [List.filter_cons_of_pos (alone.isSolid level), shape, isIndented]
      simp [blanks, width, allSpaces, aligned, deeper, body]
    first := by simpa [alone.isSolid level] using width
    margin := by
      refine List.forall_mem_cons.mpr ⟨.inr (List.prefix_append _ _), ?_⟩
      intro text member
      rcases flow.margin text member with rfl | deep
      · exact .inl rfl
      · exact .inr ((margin_succ level).trans deep) }

end

namespace Code

/-- The code starts with a line that is not blank. -/
def startsSolid : List Code → Bool
  | [] => false
  | .blank :: _ => false
  | _ :: _ => true

mutual

/-- Code all of whose lines stand alone, with a colon at their end only in
headers, and in which no block is empty. -/
def Regular : Code → Prop
  | .line text => StandsAlone text.toList ∧ text.toList.getLast? ≠ some ':'
  | .blank => True
  | .block header body =>
      StandsAlone header.toList ∧ startsSolid body = true ∧ RegularAll body

def RegularAll : List Code → Prop
  | [] => True
  | code :: rest => Regular code ∧ RegularAll rest

end

theorem regularAll_iff {codes : List Code} :
    RegularAll codes ↔ ∀ code ∈ codes, code.Regular := by
  induction codes with
  | nil => simp [RegularAll]
  | cons code codes induction => simp [RegularAll, induction]

theorem filter_isSolid_ne_nil {codes : List Code} (regular : RegularAll codes)
    (starts : startsSolid codes = true) (level : Nat) :
    (linesAll level codes).filter isSolid ≠ [] := by
  match codes, regular with
  | .line text :: _, ⟨⟨alone, _⟩, _⟩ =>
      simp [linesAll, lines, alone.isSolid level]
  | .block header _ :: _, ⟨⟨alone, _⟩, _⟩ =>
      simp [linesAll, lines, alone.isSolid level]

mutual

theorem Regular.flow {code : Code} (regular : code.Regular) (level : Nat) :
    Flow level (lines level code) (lines level code) := by
  match code with
  | .line text => exact flow_line regular.1 regular.2 level
  | .blank => exact flow_blank level
  | .block header body =>
      obtain ⟨alone, starts, regular⟩ := regular
      have flow := flow_block alone level (RegularAll.flow regular (level + 1))
        (filter_isSolid_ne_nil regular starts (level + 1))
      simpa [lines] using flow

/-- Regular code passes the self-check at every level, and every line of it is
a statement. -/
theorem RegularAll.flow
    {codes : List Code} (regular : RegularAll codes) (level : Nat) :
    Flow level (linesAll level codes) (linesAll level codes) := by
  match codes with
  | [] => exact flow_nil level
  | code :: codes =>
      exact (regular.1.flow level).append (RegularAll.flow regular.2 level)

end

end Code

theorem checkIndentation_eq_ok
    {lines : List Line} (indented : isIndented (lines.map Line.text) = true) :
    checkIndentation lines = .ok () := by
  induction lines with
  | nil => rfl
  | cons line rest induction =>
      simp only [List.map_cons, isIndented, Bool.and_eq_true, List.head?_map,
        Option.any_map, Bool.or_eq_true, Bool.not_eq_true',
        beq_iff_eq] at indented
      obtain ⟨⟨⟨blanks, aligned⟩, opens⟩, restIndented⟩ := indented
      have onlySpaces :
          (line.text.takeWhile Text.isBlank).any (· != ' ') = false := by
        simpa [List.any_eq_false, List.all_eq_true] using blanks
      have hasBody : (opensBlock line.text &&
          !(rest.head?.any fun next =>
              indentWidth next.text == indentWidth line.text + 4)) =
            false := by
        rcases opens with noBlock | body
        · rw [noBlock, Bool.false_and]
        · rw [Bool.and_eq_false_iff]
          exact .inr (by simpa [Function.comp_def] using body)
      simp [checkIndentation, onlySpaces, aligned, hasBody,
        induction restIndented]

/-- The tool whose function a line defines. -/
def toolOf? (text : List Char) : Option String :=
  (behind? "def tool_" text).map fun rest =>
    String.ofList (rest.takeWhile (· != '('))

/-- Whether a line defines the entry point. -/
def isEntry (text : List Char) : Bool :=
  (behind? "def run_workflow(" text).isSome

theorem checkDefinitions_eq_ok {tools : NameSet} {lines : List Line}
    (defined : (lines.map Line.text).filterMap toolOf? = tools.names)
    (entries : (lines.map Line.text).countP isEntry = 1) :
    checkDefinitions tools lines = .ok () := by
  have same : lines.filterMap definedTool? = tools.names := by
    rw [← defined, List.filterMap_map]
    rfl
  have one :
      lines.countP
        (fun line => (behind? "def run_workflow(" line.text).isSome) = 1 := by
    rw [← entries, List.countP_map]
    rfl
  have distinct : tools.names.Nodup :=
    tools.increasing.imp fun below same =>
      absurd (same ▸ below) (String.lt_irrefl _)
  have everyOnce :
      (tools.names.find? fun tool => tools.names.count tool != 1) = none := by
    rw [List.find?_eq_none]
    intro tool member
    simp [distinct.count, member]
  have noOther :
      (tools.names.find? fun name => decide (name ∉ tools)) = none := by
    rw [List.find?_eq_none]
    intro name member
    simpa [NameSet.mem_def] using member
  simp only [checkDefinitions, same, one, everyOnce, noOther]
  rfl

/-- Lines without fault pass the self-check when every tool is defined once and
nothing else is, and there is one entry point. -/
theorem selfCheck_eq_ok
    {source : String} {tools : NameSet} {statements : List (List Char)}
    (flow : Flow 0 (Text.lines source.toList) statements)
    (defined : statements.filterMap toolOf? = tools.names)
    (entries : statements.countP isEntry = 1) :
    selfCheck source tools = .ok () := by
  obtain ⟨read, reads, starting⟩ := flow.reads 1
  have lexed : lex source.toList = .ok read := by
    simp only [lex, reads, ok_bind]
    rfl
  have indented : isIndented (((read.filter Line.startsStatement).filter
      fun line => !(Text.trim line.text).isEmpty).map Line.text) = true := by
    have indented := flow.indented
    rw [← starting, List.filter_map] at indented
    exact indented
  rw [← starting] at defined entries
  simp only [selfCheck, lexed, ok_bind, checkIndentation_eq_ok indented,
    checkDefinitions_eq_ok defined entries]

end Workflow.Program
