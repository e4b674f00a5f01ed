import Workflow.Condition.Problem
import Workflow.Text.Span

/-!
# Forbidden text in conditions

What no condition may contain, wherever it stands, inside string literals and
references too: separators of statements, control characters, names between
double underscores, words that execute code or reach into objects, paths into
modules, and assignments.  The checks run in this order, and all of them run
before anything else is asked of a condition.
-/

namespace Workflow.Condition

/-- Words that execute code, touch files or look into objects. -/
def deniedWords : List String :=
  ["eval", "exec", "compile", "import", "open", "getattr", "setattr",
    "delattr", "hasattr", "globals", "locals", "vars", "breakpoint", "lambda"]

/-- Modules whose members no condition may name. -/
def deniedModules : List String :=
  ["os", "sys", "subprocess", "shutil", "pathlib", "importlib", "builtins",
    "socket", "io"]

def isSeparator (c : Char) : Bool :=
  c == ';' || c == '\n' || c == '\r'

/-- Control characters other than the tabulator. -/
def isForbiddenControl (c : Char) : Bool :=
  Text.isControl c && c != '\t'

/-- The longest start of a text that ends in two underscores. -/
def upToLastPair? : List Char → Option (List Char)
  | [] => none
  | c :: rest =>
      match upToLastPair? rest with
      | some found => some (c :: found)
      | none =>
          if c == '_' && rest.head? == some '_' then some [c, '_'] else none

/-- The longest name between double underscores at the start of a text. -/
def dunderAt? : List Char → Option (List Char)
  | '_' :: '_' :: rest =>
      match rest.takeWhile Text.isWordChar with
      | [] => none
      | first :: run =>
          (upToLastPair? run).map fun found => '_' :: '_' :: first :: found
  | _ => none

/-- The leftmost name between double underscores. -/
def dunder? : List Char → Option (List Char)
  | [] => none
  | c :: rest =>
      match dunderAt? (c :: rest) with
      | some found => some found
      | none => dunder? rest

/-- The leftmost word that is denied. -/
def deniedWord? (text : List Char) : Option (List Char) :=
  ((Text.words text).find? fun word =>
    deniedWords.contains (String.ofList word.letters)).map Text.Word.letters

/-- Whether a word is a denied module with a dot behind it, blanks apart. -/
def isModulePath (word : Text.Word) : Bool :=
  deniedModules.contains (String.ofList word.letters) &&
    (word.rest.dropWhile Text.isBlank).head? == some '.'

/-- The leftmost denied module with a dot behind it. -/
def deniedModule? (text : List Char) : Option (List Char) :=
  ((Text.words text).find? isModulePath).map Text.Word.letters

/-- Characters in front of an equals sign that make it part of a comparison. -/
def isComparisonStart (c : Char) : Bool :=
  c == '=' || c == '!' || c == '<' || c == '>' || c == ':'

/-- Whether a text holds an assignment, given the character in front of it: an
equals sign that belongs to no comparison, or a colon with an equals sign
behind it. -/
def assignsAfter (previous : Option Char) : List Char → Bool
  | [] => false
  | c :: rest =>
      (c == '=' && !previous.any isComparisonStart &&
        rest.head? != some '=') || (c == ':' && rest.head? == some '=') ||
      assignsAfter (some c) rest

/-- Whether a text holds an assignment. -/
def assigns (text : List Char) : Bool :=
  assignsAfter none text

/-- The first check of the deny-list that a text fails. -/
def denied? (text : List Char) : Option Problem :=
  let forbidden (found : List Char) : Problem :=
    .forbiddenToken (String.ofList found)
  (if text.any isSeparator then some .statementSeparator else none)
    <|> (text.find? isForbiddenControl).map
      (fun control => .forbiddenToken (codePointText control))
    <|> (dunder? text).map forbidden
    <|> (deniedWord? text).map forbidden
    <|> (deniedModule? text).map forbidden
    <|> (if assigns text then some .assignment else none)

end Workflow.Condition
