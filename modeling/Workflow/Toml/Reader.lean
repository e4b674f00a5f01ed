import Workflow.Toml.Item
import Workflow.Toml.Scalar

/-!
# From TOML text to a table

A document is a list of statements, one a line: entries and headers.  They are
read first, and then put together to the table of the document.
-/

namespace Workflow.Toml

/-- Values nest less deep than this, and keys have fewer parts. -/
def maxNesting : Nat := 80

def skipBlanks (text : List Char) : List Char :=
  text.dropWhile fun c => c == ' ' || c == '\t'

/-- Steps over a comment, if there is one. -/
def skipComment? (text : List Char) : Option (List Char) :=
  match text with
  | '#' :: rest =>
      if (rest.takeWhile (· != '\n')).all isTextChar then
        some (rest.dropWhile (· != '\n'))
      else none
  | other => some other

/-- Steps over blanks, comments and line ends. -/
def skipLines? : Nat → List Char → Option (List Char)
  | 0, _ => none
  | fuel + 1, text => do
      match ← skipComment? (skipBlanks text) with
      | '\n' :: rest => skipLines? fuel rest
      | other => some other

/-- Ends a statement: blanks, a comment, and the end of the line or of the
text. -/
def endLine? (text : List Char) : Option (List Char) := do
  match ← skipComment? (skipBlanks text) with
  | [] => some []
  | '\n' :: rest => some rest
  | _ => none

/-- Characters of keys without quotes. -/
def isKeyChar (c : Char) : Bool :=
  c.isAlphanum || c == '_' || c == '-'

def keyPart? (text : List Char) : Option (String × List Char) :=
  match text with
  | '"' :: rest =>
      (lineString? '"' true .text [] rest).map fun (part, behind) =>
        (String.ofList part, behind)
  | '\'' :: rest =>
      (lineString? '\'' false .text [] rest).map fun (part, behind) =>
        (String.ofList part, behind)
  | other =>
      let part := other.takeWhile isKeyChar
      if part.isEmpty then none
      else some (String.ofList part, other.dropWhile isKeyChar)

/-- Reads the parts of a key, at most `parts` of them, and the blanks around
it. -/
def keyParts? : Nat → List Char → Option (List String × List Char)
  | 0, _ => none
  | parts + 1, text => do
      let (part, behind) ← keyPart? (skipBlanks text)
      match skipBlanks behind with
      | '.' :: rest =>
          let (later, behind) ← keyParts? parts rest
          return (part :: later, behind)
      | other => return ([part], other)

/-- Reads a key: the path to its last part, that part, and the text behind
it. -/
def key? (text : List Char) : Option ((List String × String) × List Char) := do
  let (parts, behind) ← keyParts? (maxNesting - 1) text
  return ((parts.dropLast, ← parts.getLast?), behind)

/-- Characters of numbers, truth values, dates and times. -/
def isWordChar (c : Char) : Bool :=
  c.isAlphanum || c == '+' || c == '-' || c == '_' || c == '.' || c == ':'

def wordItem? (word : List Char) : Option Item :=
  if word = "true".toList || word = "false".toList then some .boolean
  else if isDatetime word then some .datetime
  else if isFloat word then some .float
  else (integer? word).map .integer

/-- A word; a blank between a date and a time belongs to it. -/
def word (text : List Char) : List Char × List Char :=
  let first := text.takeWhile isWordChar
  let behind := text.dropWhile isWordChar
  match behind with
  | ' ' :: h1 :: h2 :: ':' :: rest =>
      if isDate first && h1.isDigit && h2.isDigit then
        let time := h1 :: h2 :: ':' :: rest
        (first ++ ' ' :: time.takeWhile isWordChar, time.dropWhile isWordChar)
      else (first, behind)
  | _ => (first, behind)

/-- Reads a string in any of its notations. -/
def string? (text : List Char) : Option (Option (String × List Char)) :=
  let render (read : Option (List Char × List Char)) :
      Option (String × List Char) :=
    read.map fun (part, behind) => (String.ofList part, behind)
  match text with
  | '"' :: '"' :: '"' :: rest => some (render (multilineBody? '"' true rest))
  | '"' :: rest => some (render (lineString? '"' true .text [] rest))
  | '\'' :: '\'' :: '\'' :: rest =>
      some (render (multilineBody? '\'' false rest))
  | '\'' :: rest => some (render (lineString? '\'' false .text [] rest))
  | _ => none

mutual

/-- Reads a value in which others nest less than `depth` deep. -/
def value? (fuel depth : Nat) (text : List Char) : Option (Item × List Char) :=
  match fuel, depth with
  | 0, _ | _, 0 => none
  | fuel + 1, depth + 1 =>
      match text with
      | '[' :: rest => do
          let (items, behind) ← arrayItems? fuel depth rest
          return (.array items, behind)
      | '\x7b' :: rest =>
          match skipBlanks rest with
          | '\x7d' :: behind =>
              if depth = 0 then none else some (.inline [], behind)
          | other => do
              let (table, behind) ← inlineEntries? fuel depth (.empty .header)
                other
              return (.inline table.entries, behind)
      | other =>
          match string? other with
          | some read =>
              read.map fun (content, behind) => (.string content, behind)
          | none => do
              let (first, behind) := word other
              return (← wordItem? first, behind)

/-- Reads the items of an array up to its closing bracket. -/
def arrayItems? (fuel depth : Nat) (text : List Char) :
    Option (List Item × List Char) :=
  match fuel with
  | 0 => none
  | fuel + 1 => do
      if depth = 0 then none
      match ← skipLines? (fuel + 1) text with
      | ']' :: rest => some ([], rest)
      | other => do
          let (item, behind) ← value? fuel depth other
          match ← skipLines? (fuel + 1) behind with
          | ',' :: rest =>
              let (later, behind) ← arrayItems? fuel depth rest
              return (item :: later, behind)
          | ']' :: rest => some ([item], rest)
          | _ => none

/-- Reads the entries of an inline table up to its closing brace. -/
def inlineEntries? (fuel depth : Nat) (table : Table) (text : List Char) :
    Option (Table × List Char) :=
  match fuel with
  | 0 => none
  | fuel + 1 => do
      if depth = 0 then none
      let ((path, key), behind) ← key? text
      match behind with
      | '=' :: rest =>
          let (item, behind) ← value? fuel depth (skipBlanks rest)
          let extended ← table.addAt? path key item
          match skipBlanks behind with
          | ',' :: rest => inlineEntries? fuel depth extended rest
          | '\x7d' :: rest => some (extended, rest)
          | _ => none
      | _ => none

end

inductive Statement where
  | entry (path : List String) (key : String) (item : Item)
  | table (path : List String) (key : String)
  | tableOfArray (path : List String) (key : String)

/-- Reads a statement up to the end of its line. -/
def statement? (fuel : Nat) (text : List Char) :
    Option (Statement × List Char) := do
  match text with
  | '[' :: '[' :: rest =>
      let ((path, key), behind) ← key? rest
      match behind with
      | ']' :: ']' :: rest => return (.tableOfArray path key, ← endLine? rest)
      | _ => none
  | '[' :: rest =>
      let ((path, key), behind) ← key? rest
      match behind with
      | ']' :: rest => return (.table path key, ← endLine? rest)
      | _ => none
  | other =>
      let ((path, key), behind) ← key? other
      match behind with
      | '=' :: rest =>
          let (item, behind) ← value? fuel maxNesting (skipBlanks rest)
          return (.entry path key item, ← endLine? behind)
      | _ => none

/-- Reads statements up to the end of the text. -/
def statements? : Nat → List Char → Option (List Statement)
  | 0, _ => none
  | fuel + 1, text => do
      match ← skipLines? (fuel + 1) text with
      | [] => some []
      | other =>
          let (statement, behind) ← statement? fuel other
          return statement :: (← statements? fuel behind)

/-- The table of the document, and the path to the table that entries go to. -/
structure Assembly where
  root : Table
  current : List String

def Assembly.step? (assembly : Assembly) : Statement → Option Assembly
  | .entry path key item => do
      let root ← assembly.root.modifyAt? false (Table.addAt? path key item)
        assembly.current
      return { assembly with root := root }
  | .table path key => do
      return ⟨← assembly.root.modifyAt? false (Table.declare? key) path,
        path ++ [key]⟩
  | .tableOfArray path key => do
      return ⟨← assembly.root.modifyAt? false (Table.extend? key) path,
        path ++ [key]⟩

/-- Drops the carriage returns in front of line feeds. -/
def unifyLineEnds : List Char → List Char
  | [] => []
  | '\r' :: '\n' :: rest => '\n' :: unifyLineEnds rest
  | c :: rest => c :: unifyLineEnds rest

/-- The entries of the table of a document. Every step of reading takes a
character, or is followed by one that does, so the fuel suffices. -/
def ofText? (text : String) : Option Entries := do
  let characters :=
    match text.toList with
    | '\ufeff' :: rest => unifyLineEnds rest
    | other => unifyLineEnds other
  let statements ← statements? (4 * characters.length + 4) characters
  let final ← statements.foldlM Assembly.step? ⟨.empty .header, []⟩
  return final.root.entries

end Workflow.Toml
