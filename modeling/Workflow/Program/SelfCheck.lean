import Workflow.Condition.Problem
import Workflow.Name.NameSet
import Workflow.Text.Span

/-!
# Self-check of programs

What every emitted program satisfies, checked on its text: quotes and brackets
balance, with comments and triple quotes understood; control characters occur
in string literals only, and NUL nowhere; indentation is blanks in steps of
four; a line that opens a block is followed by a line one step deeper; every
tool has one function and no other tool has one; there is one entry point.
-/

namespace Workflow.Program

inductive Defect where
  | nul (line : Nat)
  | openQuote (line : Nat)
  | unmatched (line : Nat) (bracket : Char)
  | control (line : Nat) (character : Char)
  | neverClosed (line : Nat) (bracket : Char)
  | openTripleQuote
  | otherIndentation (line : Nat)
  | oddIndentation (line width : Nat)
  | noBody (line : Nat)
  | entryPoints (count : Nat)
  | toolFunctions (tool : String) (count : Nat)
  | unusedTool (name : String)
  deriving DecidableEq, Repr

def Defect.message : Defect → String
  | .nul line => s!"line {line}: NUL byte in source"
  | .openQuote line => s!"line {line}: unterminated string literal"
  | .unmatched line bracket => s!"line {line}: unmatched '{bracket}'"
  | .control line character =>
      s!"line {line}: control character " ++
        Condition.codePointText character ++ " outside a string literal"
  | .neverClosed line bracket => s!"line {line}: '{bracket}' is never closed"
  | .openTripleQuote => "unterminated triple-quoted string"
  | .otherIndentation line => s!"line {line}: tab or non-space indentation"
  | .oddIndentation line width =>
      s!"line {line}: indentation of {width} is not a multiple of 4"
  | .noBody line =>
      s!"line {line}: block opener is not followed by an indented body"
  | .entryPoints count =>
      s!"expected one run_workflow definition, found {count}"
  | .toolFunctions tool count =>
      s!"expected one definition of tool_{tool}, found {count}"
  | .unusedTool name => s!"tool_{name} is defined but never used"

namespace SelfCheck

/-- Where in a line the machine stands. Of a string literal the first quotes
are counted, because three of them open one that may go on over lines; of such
a literal the last quotes are. -/
inductive Mode where
  | code
  | comment
  | firstQuote (quote : Char)
  | secondQuote (quote : Char)
  | quoted (quote : Char)
  | escaped (quote : Char)
  | triple (quote : Char) (closing : Nat)
  | tripleEscaped (quote : Char)
  deriving DecidableEq, Repr

/-- Where the machine stands, and the open brackets with their lines, innermost
first. -/
structure Lexer where
  mode : Mode
  brackets : List (Char × Nat)
  deriving DecidableEq, Repr

/-- The bracket that a closing one pairs up with. -/
def opening (closing : Char) : Char :=
  if closing == ')' then '(' else if closing == ']' then '[' else '\x7b'

/-- Reads a character outside of literals and comments. -/
def readCode (line : Nat) (brackets : List (Char × Nat)) (c : Char) :
    Except Defect Lexer :=
  if c == '#' then .ok ⟨.comment, brackets⟩
  else if c == '\'' || c == '"' then .ok ⟨.firstQuote c, brackets⟩
  else if c == '(' || c == '[' || c == '\x7b' then
    .ok ⟨.code, (c, line) :: brackets⟩
  else if c == ')' || c == ']' || c == '\x7d' then
    match brackets with
    | (innermost, _) :: outer =>
        if innermost == opening c then .ok ⟨.code, outer⟩
        else .error (.unmatched line c)
    | [] => .error (.unmatched line c)
  else if Text.isControl c && c != '\t' then .error (.control line c)
  else .ok ⟨.code, brackets⟩

def step (line : Nat) (lexer : Lexer) (c : Char) : Except Defect Lexer :=
  let brackets := lexer.brackets
  match lexer.mode with
  | .code => readCode line brackets c
  | .comment => .ok lexer
  | .firstQuote quote =>
      if c == quote then .ok ⟨.secondQuote quote, brackets⟩
      else if c == '\\' then .ok ⟨.escaped quote, brackets⟩
      else .ok ⟨.quoted quote, brackets⟩
  | .secondQuote quote =>
      if c == quote then .ok ⟨.triple quote 0, brackets⟩
      else readCode line brackets c
  | .quoted quote =>
      if c == '\\' then .ok ⟨.escaped quote, brackets⟩
      else if c == quote then .ok ⟨.code, brackets⟩
      else .ok lexer
  | .escaped quote => .ok ⟨.quoted quote, brackets⟩
  | .triple quote closing =>
      if c == '\\' then .ok ⟨.tripleEscaped quote, brackets⟩
      else if c == quote then
        if closing = 2 then .ok ⟨.code, brackets⟩
        else .ok ⟨.triple quote (closing + 1), brackets⟩
      else .ok ⟨.triple quote 0, brackets⟩
  | .tripleEscaped quote => .ok ⟨.triple quote 0, brackets⟩

/-- Ends a line: only triple quotes may stay open. -/
def endLine (line : Nat) (lexer : Lexer) : Except Defect Lexer :=
  match lexer.mode with
  | .firstQuote _ | .quoted _ | .escaped _ => .error (.openQuote line)
  | .triple quote _ | .tripleEscaped quote =>
      .ok ⟨.triple quote 0, lexer.brackets⟩
  | .code | .comment | .secondQuote _ => .ok ⟨.code, lexer.brackets⟩

/-- A line of a program with its number; it starts a statement unless a bracket
or a literal is still open. -/
structure Line where
  number : Nat
  text : List Char
  startsStatement : Bool
  deriving DecidableEq, Repr

def readLine (number : Nat) (lexer : Lexer) (text : List Char) :
    Except Defect Lexer := do
  if text.contains '\x00' then throw (.nul number)
  let reached ← text.foldlM (step number) lexer
  endLine number reached

def readLines (number : Nat) (lexer : Lexer) :
    List (List Char) → Except Defect (List Line × Lexer)
  | [] => .ok ([], lexer)
  | text :: rest => do
      let next ← readLine number lexer text
      let (lines, final) ← readLines (number + 1) next rest
      let starts := lexer.brackets.isEmpty && lexer.mode == .code
      return (⟨number, text, starts⟩ :: lines, final)

/-- The lines of a program, all of whose quotes and brackets must match. -/
def lex (source : List Char) : Except Defect (List Line) := do
  let (lines, final) ← readLines 1 ⟨.code, []⟩ (Text.lines source)
  match final.brackets, final.mode with
  | (bracket, line) :: _, _ => throw (.neverClosed line bracket)
  | [], .code => return lines
  | [], _ => throw .openTripleQuote

/-- Number of blanks at the start of a line. -/
def indentWidth (text : List Char) : Nat :=
  (text.takeWhile (· == ' ')).length

def opensBlock (text : List Char) : Bool :=
  let code := Text.trimEnd text
  (Text.trimStart code).head? != some '#' && code.getLast? == some ':'

/-- Checks the indentation of statements, each in view of the one behind it. -/
def checkIndentation : List Line → Except Defect Unit
  | [] => .ok ()
  | line :: rest => do
      if (line.text.takeWhile Text.isBlank).any (· != ' ') then
        throw (.otherIndentation line.number)
      let width := indentWidth line.text
      if width % 4 ≠ 0 then throw (.oddIndentation line.number width)
      if opensBlock line.text &&
        !(rest.head?.any fun next => indentWidth next.text == width + 4) then
        throw (.noBody line.number)
      checkIndentation rest

def behind? (start : String) (text : List Char) : Option (List Char) :=
  if start.toList.isPrefixOf text then some (text.drop start.length) else none

/-- The tool whose function a line defines. -/
def definedTool? (line : Line) : Option String :=
  (behind? "def tool_" line.text).map fun rest =>
    String.ofList (rest.takeWhile (· != '('))

/-- Checks the functions of tools and the entry point. -/
def checkDefinitions (tools : NameSet) (lines : List Line) :
    Except Defect Unit := do
  let defined := lines.filterMap definedTool?
  let entries :=
    lines.countP fun line => (behind? "def run_workflow(" line.text).isSome
  if entries ≠ 1 then throw (.entryPoints entries)
  match tools.names.find? fun tool => defined.count tool != 1 with
  | some tool => throw (.toolFunctions tool (defined.count tool))
  | none => pure ()
  match defined.find? fun name => decide (name ∉ tools) with
  | some name => throw (.unusedTool name)
  | none => pure ()

end SelfCheck

/-- Checks the text of a program with functions for the given tools. -/
def selfCheck (source : String) (tools : NameSet) : Except Defect Unit := do
  let lines :=
    (← SelfCheck.lex source.toList).filter SelfCheck.Line.startsStatement
  SelfCheck.checkIndentation
    (lines.filter fun line => !(Text.trim line.text).isEmpty)
  SelfCheck.checkDefinitions tools lines

end Workflow.Program
