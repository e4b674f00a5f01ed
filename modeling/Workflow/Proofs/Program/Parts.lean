import Mathlib.Data.List.DropRight
import Workflow.Document.SpecReader
import Workflow.Proofs.Program.TreeCode

/-!
# Parts of a program

Each part of a program passes the self-check by itself; how many tools and
entry points it defines is kept with it, and adds up when parts are put
together.
-/

namespace Workflow.Program

open SelfCheck Code

/-- Code at the left margin that passes the self-check, with the tools that it
defines and the number of its entry points. -/
def Part (codes : List Code) (tools : List String) (entries : Nat) : Prop :=
  ∃ statements, Flow 0 (linesAll 0 codes) statements ∧
    statements.filterMap toolOf? = tools ∧ statements.countP isEntry = entries

theorem Part.append
    {codes more : List Code} {tools others : List String} {entries count : Nat}
    (first : Part codes tools entries) (second : Part more others count) :
    Part (codes ++ more) (tools ++ others) (entries + count) := by
  obtain ⟨statements, flow, rfl, rfl⟩ := first
  obtain ⟨later, laterFlow, rfl, rfl⟩ := second
  refine ⟨statements ++ later, ?_, List.filterMap_append, List.countP_append⟩
  rw [linesAll_append]
  exact flow.append laterFlow

theorem Part.before
    {codes more : List Code} {tools : List String} {entries : Nat}
    (first : Part codes [] 0) (second : Part more tools entries) :
    Part (codes ++ more) tools entries := by
  have both := first.append second
  rwa [List.nil_append, Nat.zero_add] at both

theorem Part.behind
    {codes more : List Code} {tools : List String} {entries : Nat}
    (first : Part codes tools entries) (second : Part more [] 0) :
    Part (codes ++ more) tools entries := by
  have both := first.append second
  rwa [List.append_nil, Nat.add_zero] at both

theorem behind?_eq_none {start : String} {text : List Char} {c : Char}
    (first : start.toList.head? = some c) (other : text.head? ≠ some c) :
    behind? start text = none := by
  obtain ⟨rest, shape⟩ := List.head?_eq_some_iff.mp first
  have noStart : start.toList.isPrefixOf text = false := by
    rw [shape]
    cases text with
    | nil => rfl
    | cons d text =>
        have different : (c == d) = false := by
          rw [beq_eq_false_iff_ne]
          rintro rfl
          exact other rfl
        simp [List.isPrefixOf, different]
  simp only [behind?, noStart, Bool.false_eq_true, if_false]

/-- Only lines that start with a letter `d` define anything. -/
theorem defines_nothing {text : List Char} (other : text.head? ≠ some 'd') :
    toolOf? text = none ∧ isEntry text = false := by
  constructor
  · rw [toolOf?, behind?_eq_none (by simp) other, Option.map_none]
  · rw [isEntry, behind?_eq_none (by simp) other, Option.isSome_none]

theorem defines_nothing_of_margin
    {text : List Char} (deeper : text = [] ∨ margin 1 <+: text) :
    toolOf? text = none ∧ isEntry text = false := by
  apply defines_nothing
  rcases deeper with rfl | ⟨rest, rfl⟩
  · simp
  · simp [margin]

theorem filterMap_toolOf?_eq_nil {texts : List (List Char)}
    (nothing : ∀ text ∈ texts, toolOf? text = none ∧ isEntry text = false) :
    texts.filterMap toolOf? = [] ∧ texts.countP isEntry = 0 := by
  constructor
  · exact List.filterMap_eq_nil_iff.mpr fun text member =>
      (nothing text member).1
  · rw [List.countP_eq_zero]
    intro text member
    simp [(nothing text member).2]

/-- A block at the left margin defines what its header defines. -/
theorem part_block
    {header : String} {body : List Code} {statements : List (List Char)}
    (alone : StandsAlone header.toList)
    (flow : Flow 1 (linesAll 1 body) statements)
    (notEmpty : statements.filter isSolid ≠ []) :
    Part [.block header body] ([header.toList].filterMap toolOf?)
      ([header.toList].countP isEntry) := by
  obtain ⟨noTools, noEntries⟩ := filterMap_toolOf?_eq_nil
    fun text member => defines_nothing_of_margin (flow.margin text member)
  refine ⟨[header.toList] ++ statements, ?_, ?_, ?_⟩
  · simpa [linesAll, margin] using flow_block alone 0 flow notEmpty
  · rw [List.filterMap_append, noTools, List.append_nil]
  · rw [List.countP_append, noEntries, Nat.add_zero]

def opener : Code → List Char
  | .line text => text.toList
  | .blank => []
  | .block header _ => header.toList

/-- Regular code defines what the first lines of its pieces define. -/
theorem part_of_regular {code : Code} (regular : code.Regular) :
    Part [code] ([opener code].filterMap toolOf?)
      ([opener code].countP isEntry) := by
  cases code with
  | line text =>
      refine ⟨[text.toList], ?_, rfl, rfl⟩
      simpa [linesAll, lines, margin] using flow_line regular.1 regular.2 0
  | blank => exact ⟨[[]], flow_blank 0, rfl, rfl⟩
  | block header body =>
      obtain ⟨alone, starts, regular⟩ := regular
      exact part_block alone (RegularAll.flow regular 1)
        (filter_isSolid_ne_nil regular starts 1)

theorem part_of_regularAll {codes : List Code} (regular : RegularAll codes) :
    Part codes ((codes.map opener).filterMap toolOf?)
      ((codes.map opener).countP isEntry) := by
  induction codes with
  | nil => exact ⟨[], flow_nil 0, rfl, rfl⟩
  | cons code codes induction =>
      have parts := (part_of_regular regular.1).append (induction regular.2)
      rw [← List.filterMap_append, ← List.countP_append] at parts
      exact parts

/-- Whether a line passes the self-check by itself, found out by reading it. -/
def isReadable (text : List Char) : Bool :=
  text.all (fun c => c != '\n' && c != '\x00') && text.getLast? != some '\r' &&
    decide (readRest 0 ⟨.code, []⟩ text = .ok ⟨.code, []⟩)

theorem readLine_of_isReadable
    {text : List Char} (readable : isReadable text = true) (number : Nat) :
    readLine number ⟨.code, []⟩ text = .ok ⟨.code, []⟩ := by
  simp only [isReadable, Bool.and_eq_true, List.all_eq_true, bne_iff_ne,
    decide_eq_true_eq] at readable
  obtain ⟨⟨inline, _⟩, reads⟩ := readable
  rw [readLine_eq_readRest fun member => (inline _ member).2 rfl]
  exact readRest_of_readRest number reads

theorem tidy_of_isReadable
    {text : List Char} (readable : isReadable text = true) :
    Tidy text := by
  simp only [isReadable, Bool.and_eq_true, List.all_eq_true,
    bne_iff_ne] at readable
  exact ⟨fun member => (readable.1.1 _ member).1 rfl, readable.1.2⟩

theorem reads_of_isReadable
    {texts : List (List Char)}
    (readable : ∀ text ∈ texts, isReadable text = true) :
    Reads texts texts := by
  induction texts with
  | nil => exact reads_nil
  | cons text rest induction =>
      obtain ⟨here, later⟩ := List.forall_mem_cons.mp readable
      exact (reads_singleton (readLine_of_isReadable here)).append
        (induction later)

/-- Whether lines pass the self-check and define nothing that it looks for. -/
def areFixed (texts : List (List Char)) : Bool :=
  texts.all
    (fun text => isReadable text && (toolOf? text).isNone && !isEntry text) &&
  isIndented (texts.filter isSolid) &&
  (texts.filter isSolid).head?.all fun text => indentWidth text == 0

theorem linesAll_ofLine (texts : List String) :
    linesAll 0 (texts.map ofLine) = texts.map String.toList := by
  induction texts with
  | nil => rfl
  | cons text texts induction =>
      have line : lines 0 (ofLine text) = [text.toList] := by
        unfold ofLine
        split
        · rename_i empty
          simp [lines, empty]
        · simp [lines, margin]
      rw [List.map_cons, linesAll, line, induction]
      rfl

theorem part_of_areFixed
    {texts : List String} (fixed : areFixed (texts.map String.toList) = true) :
    Part (texts.map ofLine) [] 0 := by
  simp only [areFixed, Bool.and_eq_true, List.all_eq_true, Bool.not_eq_true',
    Option.isNone_iff_eq_none, Option.all_eq_true, beq_iff_eq] at fixed
  obtain ⟨⟨each, indented⟩, first⟩ := fixed
  have readable : ∀ text ∈ texts.map String.toList, isReadable text = true :=
    fun text member => (each text member).1.1
  have nothing := filterMap_toolOf?_eq_nil
    fun text member => ⟨(each text member).1.2, (each text member).2⟩
  refine ⟨texts.map String.toList, ?_, nothing.1, nothing.2⟩
  rw [linesAll_ofLine]
  exact {
    tidy := fun text member => tidy_of_isReadable (readable text member)
    reads := reads_of_isReadable readable
    indented := indented
    first := first
    margin := fun _ _ => .inr List.nil_prefix }

-- The characters of the literals are written out before the lines are read: to
-- find them is what takes the kernel long.

theorem areFixed_imports : areFixed (imports.map String.toList) = true := by
  simp only [imports, List.map_cons, List.map_nil]
  repeat rw [String.toList_ofList]
  decide +kernel

theorem areFixed_support : areFixed (support.map String.toList) = true := by
  simp only [support, List.map_cons, List.map_nil]
  repeat rw [String.toList_ofList]
  decide +kernel

theorem part_imports : Part (imports.map ofLine) [] 0 :=
  part_of_areFixed areFixed_imports

theorem part_support : Part (support.map ofLine) [] 0 :=
  part_of_areFixed areFixed_support

/-- No character of the text comes before the blank. -/
def IsPrintable (text : String) : Prop :=
  text.toList.all (0x20 ≤ ·.toNat) = true

instance (text : String) : Decidable (IsPrintable text) :=
  inferInstanceAs (Decidable (text.toList.all (0x20 ≤ ·.toNat) = true))

theorem isPrintable_iff {text : String} :
    IsPrintable text ↔ ∀ c ∈ text.toList, 0x20 ≤ c.toNat := by
  simp [IsPrintable]

theorem IsPrintable.notMem
    {text : String} (printable : IsPrintable text) {c : Char}
    (control : c.toNat < 0x20) :
    c ∉ text.toList := by
  intro member
  exact absurd (isPrintable_iff.mp printable c member) (by omega)

theorem IsPrintable.tidy {text : String} (printable : IsPrintable text) :
    Code.Tidy text.toList := by
  refine ⟨printable.notMem (by decide), ?_⟩
  intro last
  exact printable.notMem (by decide) (List.mem_of_getLast? last)

theorem IsPrintable.append {left right : String} (ofLeft : IsPrintable left)
    (ofRight : IsPrintable right) : IsPrintable (left ++ right) := by
  rw [IsPrintable, String.toList_append, List.all_append, Bool.and_eq_true]
  exact ⟨ofLeft, ofRight⟩

theorem isPrintable_commaSeparated
    {items : List String} (each : ∀ item ∈ items, IsPrintable item) :
    IsPrintable (Text.commaSeparated items) := by
  have comma : IsPrintable ", " := by decide
  unfold Text.commaSeparated
  fun_induction Text.joined ", " items with
  | case1 => exact rfl
  | case2 item => exact each item List.mem_cons_self
  | case3 item rest _ induction =>
      obtain ⟨first, others⟩ := List.forall_mem_cons.mp each
      exact (first.append comma).append (induction others)

theorem isPrintable_of_isIdentifier
    {name : String} (identifier : isIdentifier name = true) :
    IsPrintable name := by
  apply isPrintable_iff.mpr
  intro c member
  have range :=
    Reference.toNat_of_isFieldChar
      (isFieldChar_of_isIdentifier identifier member)
  omega

theorem isPrintable_environmentVariable
    {name : String} (printable : IsPrintable name) :
    IsPrintable (environmentVariable name) := by
  apply isPrintable_iff.mpr
  intro c member
  rw [environmentVariable, String.toList_ofList] at member
  obtain ⟨original, inName, rfl⟩ := List.mem_map.mp member
  unfold Char.toUpper
  split
  · rename_i lower
    have above : 97 ≤ original.toNat := UInt32.le_iff_toNat_le.mp lower.1
    have below : original.toNat ≤ 122 := UInt32.le_iff_toNat_le.mp lower.2
    simp
    omega
  · exact isPrintable_iff.mp printable original inName

theorem isPrintable_of_isVersion
    {version : String} (valid : Document.isVersion version = true) :
    IsPrintable version := by
  obtain ⟨first, rest, cut, shape⟩ := Text.pieces_eq_cons '.' version.toList
  simp only [Document.isVersion, cut, Bool.and_eq_true,
    List.all_eq_true] at valid
  have zeros : ∀ first ∈ Text.decimalZeros, 0x20 ≤ first := by decide
  have digits : ∀ piece ∈ first :: rest, ∀ c ∈ piece, 0x20 ≤ c.toNat := by
    intro piece member c inPiece
    have digit := (valid.2 piece member).2 c inPiece
    simp only [Text.isDecimalDigit, List.any_eq_true, Bool.and_eq_true,
      decide_eq_true_eq] at digit
    obtain ⟨first, isZero, above, _⟩ := digit
    exact (zeros first isZero).trans above
  apply isPrintable_iff.mpr
  intro c member
  rw [shape] at member
  rcases List.mem_append.mp member with inFirst | inRest
  · exact digits first List.mem_cons_self c inFirst
  · obtain ⟨piece, isPiece, inPiece⟩ := List.mem_flatMap.mp inRest
    rcases List.mem_cons.mp inPiece with rfl | behind
    · decide
    · exact digits piece (List.mem_cons_of_mem first isPiece) c behind

theorem isPrintable_fingerprint (spec : Spec) :
    IsPrintable spec.fingerprint := by
  have digits : ∀ digit : Fin 16, 0x20 ≤ (Text.hexDigit digit.val).toNat := by
    decide
  apply isPrintable_iff.mpr
  intro c member
  simp only [Spec.fingerprint, Spec.wordText, String.toList_ofList,
    List.mem_map] at member
  obtain ⟨position, _, rfl⟩ := member
  exact digits ⟨_, Nat.mod_lt _ (by decide)⟩

theorem readRest_comment
    (number : Nat) (brackets : List (Char × Nat)) (text : List Char) :
    readRest number ⟨.comment, brackets⟩ text = .ok ⟨.code, brackets⟩ := by
  induction text with
  | nil => rfl
  | cons c rest induction => rw [readRest_cons_of_step rfl, induction]

theorem opensBlock_comment (text : List Char) :
    opensBlock ('#' :: text) = false := by
  have front : Text.trimEnd ('#' :: text) <+: '#' :: text :=
    List.rdropWhile_prefix Text.isBlank _
  cases code : Text.trimEnd ('#' :: text) with
  | nil => simp [opensBlock, code]
  | cons c rest =>
      rw [code] at front
      obtain ⟨rfl, _⟩ := List.cons_prefix_cons.mp front
      have kept : Text.trimStart ('#' :: rest) = '#' :: rest := rfl
      simp [opensBlock, code, kept]

/-- A comment is read whatever is in it, and is never taken for a header. -/
theorem part_comment {text : String} (starts : text.toList.head? = some '#')
    (printable : IsPrintable text) : Part [.line text] [] 0 := by
  obtain ⟨rest, shape⟩ := List.head?_eq_some_iff.mp starts
  have lines : linesAll 0 [.line text] = [text.toList] := by
    simp [linesAll, lines, margin]
  have other : text.toList.head? ≠ some 'd' := by simp [starts]
  obtain ⟨noTool, noEntry⟩ := defines_nothing other
  refine ⟨[text.toList], ?_, by simp [noTool], by simp [noEntry]⟩
  rw [lines]
  exact {
    tidy := by
      intro line member
      obtain rfl := List.mem_singleton.mp member
      exact printable.tidy
    reads := by
      apply reads_singleton
      intro number
      rw [readLine_eq_readRest (printable.notMem (by decide)), shape,
        readRest_cons_of_step rfl, readRest_comment]
    indented := by
      -- a comment is solid, but this is not needed: a line that is not solid
      -- is not looked at
      cases solid : isSolid text.toList with
      | false => simp [solid, isIndented]
      | true =>
          have start : (text.toList.takeWhile Text.isBlank) = [] ∧
              indentWidth text.toList = 0 := by
            rw [shape]
            exact ⟨rfl, rfl⟩
          have opens : opensBlock text.toList = false :=
            shape ▸ opensBlock_comment rest
          simp [solid, isIndented, start, opens]
    first := by
      intro line head
      obtain ⟨member, _⟩ := List.mem_filter.mp (List.mem_of_mem_head? head)
      rw [List.mem_singleton.mp member, shape]
      rfl
    margin := fun _ _ => .inr List.nil_prefix }

theorem part_blank : Part [.blank] [] 0 :=
  ⟨[[]], flow_blank 0, rfl, rfl⟩

theorem part_gap : Part gap [] 0 :=
  part_blank.before part_blank

theorem part_header {spec : Spec} (name : isIdentifier spec.name = true)
    (version : Document.isVersion spec.version = true)
    (inputs : ∀ input ∈ spec.inputs, isIdentifier input.name = true) :
    Part (header spec) [] 0 := by
  have ofName := isPrintable_of_isIdentifier name
  have ofVersion := isPrintable_of_isVersion version
  have generated :
      Part [.line ("# Generated by " ++ generator ++ ". Do not edit.")] [] 0 :=
    part_comment (by simp) (by decide)
  have workflow :
      Part [.line ("# workflow: " ++ spec.name ++ " " ++ spec.version)] [] 0 :=
    part_comment (by simp)
      (.append (.append (.append (by decide) ofName) (by decide)) ofVersion)
  have hash : Part [.line ("# spec-hash: " ++ spec.fingerprint)] [] 0 :=
    part_comment (by simp) (.append (by decide) (isPrintable_fingerprint spec))
  have secrets : ∀ item ∈ spec.secretInputs.names.map environmentVariable,
      IsPrintable item := by
    intro item member
    obtain ⟨secret, isSecret, rfl⟩ := List.mem_map.mp member
    obtain ⟨input, isInput, rfl⟩ :=
      List.mem_map.mp (NameSet.mem_ofList.mp isSecret)
    exact isPrintable_environmentVariable
      (isPrintable_of_isIdentifier
        (inputs input (List.mem_of_mem_filter isInput)))
  have environment : Part
      (if (spec.secretInputs.names.map environmentVariable).isEmpty then []
      else [.line ("# secrets are read from the environment: " ++
        Text.commaSeparated
          (spec.secretInputs.names.map environmentVariable))]) [] 0 := by
    split
    · exact ⟨[], flow_nil 0, rfl, rfl⟩
    · exact part_comment (by simp)
        (.append (by decide) (isPrintable_commaSeparated secrets))
  exact (((generated.before workflow).before hash).before environment).before
    part_blank

theorem tupleExpression_eq
    (items : List String) (each : ∀ item ∈ items, Expression item.toList) :
    ∃ inner, (tupleExpression items).toList = '(' :: (inner ++ [')']) ∧
      Expression inner := by
  match items with
  | [] => exact ⟨[], by decide, (sealed_of_isPlain (by simp)).expression⟩
  | [item] =>
      have comma : Sealed [','] := sealed_of_isPlain (by decide)
      refine ⟨item.toList ++ [','], by simp [tupleExpression], ?_⟩
      have complete := each item List.mem_cons_self
      exact (complete.append_sealed comma (by simp)
          (by simp [Unquoted])).expression
  | first :: second :: rest =>
      refine ⟨(Text.commaSeparated (first :: second :: rest)).toList, ?_,
        expression_joined_comma each⟩
      simp [tupleExpression]

theorem regular_names
    (front : String) (lead : Lead front) (names : List String) :
    Regular (.line (front ++ tupleExpression (names.map Text.quoted))) := by
  obtain ⟨inner, shape, complete⟩ :=
    tupleExpression_eq (names.map Text.quoted) (by
    intro item member
    obtain ⟨name, _, rfl⟩ := List.mem_map.mp member
    exact expression_quoted name)
  exact regular_application front lead complete
    (by rw [String.toList_append, shape])

theorem getLast?_dictionaryExpression (entries : List String) :
    (dictionaryExpression entries).toList.getLast? = some '\x7d' := by
  have shape : (dictionaryExpression entries).toList =
      ('\x7b' :: (Text.commaSeparated entries).toList) ++ ['\x7d'] := by
    simp [dictionaryExpression]
  rw [shape]
  exact List.getLast?_concat

theorem regular_dictionary
    (front : String) (lead : Lead front) {entries : List String}
    (each : ∀ entry ∈ entries, Expression entry.toList) :
    Regular (.line (front ++ dictionaryExpression entries)) :=
  regular_behind front lead (sealed_dictionaryExpression each).expression
    (by simp) (getLast?_dictionaryExpression entries) (by decide) (by decide)

theorem part_constants (spec : Spec) : Part (constants spec) [] 0 := by
  have entries : ∀ item ∈ [entry "name" (Text.quoted spec.name),
      entry "version" (Text.quoted spec.version),
      entry "description" (Text.quoted spec.description)],
      Expression item.toList := by
    simp only [List.forall_mem_cons]
    exact ⟨expression_entry (expression_quoted _),
      expression_entry (expression_quoted _),
      expression_entry (expression_quoted _), List.forall_mem_nil _⟩
  have workflow := regular_dictionary "WORKFLOW = " (by decide) entries
  have inputs := regular_names "INPUTS = " (by decide)
    (spec.inputs.map Input.name)
  have outputs := regular_names "OUTPUTS = " (by decide)
    (spec.outputs.map Output.name)
  rw [List.map_map] at inputs outputs
  have regular : RegularAll (constants spec) :=
    ⟨workflow, inputs, outputs, trivial⟩
  have part := part_of_regularAll regular
  have nothing : ∀ text ∈ (constants spec).map opener,
      toolOf? text = none ∧ isEntry text = false := by
    simp only [constants, List.map_cons, List.map_nil, opener,
      List.forall_mem_cons]
    exact ⟨defines_nothing (by simp), defines_nothing (by simp),
      defines_nothing (by simp), List.forall_mem_nil _⟩
  rwa [(filterMap_toolOf?_eq_nil nothing).1,
    (filterMap_toolOf?_eq_nil nothing).2] at part

end Workflow.Program
