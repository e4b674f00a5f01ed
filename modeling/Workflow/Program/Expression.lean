import Workflow.Name.Secret
import Workflow.Reference.Template
import Workflow.Text.Quoted
import Workflow.Value.Token

/-!
# Expressions of a program

How values, references and conditions are written as Python expressions.
Strings are quoted the way documents quote them, which Python reads the same; a
reference becomes a lookup in the context `ctx`, with fields that consist of
digits as integers.
-/

namespace Workflow.Program

/-- Lower-case words that Python does not take as the name of an argument. -/
def keywords : List String :=
  ["and", "as", "assert", "async", "await", "break", "class", "continue",
    "def", "del", "elif", "else", "except", "finally", "for", "from", "global",
    "if", "import", "in", "is", "lambda", "nonlocal", "not", "or", "pass",
    "raise", "return", "try", "while", "with", "yield"]

/-- Whether Python keeps a word for itself. -/
def isKeyword (name : String) : Bool :=
  keywords.contains name

def listExpression (items : List String) : String :=
  "[" ++ Text.commaSeparated items ++ "]"

/-- A dictionary expression over entries that are already written. -/
def dictionaryExpression (entries : List String) : String :=
  "\x7b" ++ Text.commaSeparated entries ++ "\x7d"

def entry (key : String) (value : String) : String :=
  Text.quoted key ++ ": " ++ value

def truth (value : Bool) : String :=
  if value then "True" else "False"

mutual

/-- The literal of a value, in which no references are looked for. -/
def literal : Value → String
  | .null => "None"
  | .bool value => truth value
  | .number value => value.render
  | .string text => Text.quoted text
  | .array items => listExpression (literalList items)
  | .object members => dictionaryExpression (literalMembers members)

def literalList : List Value → List String
  | [] => []
  | item :: rest => literal item :: literalList rest

def literalMembers : List (String × Value) → List String
  | [] => []
  | (key, value) :: rest => entry key (literal value) :: literalMembers rest

end

/-- A field of a lookup: an integer without leading zeros when it consists of
digits. -/
def fieldExpression (field : String) : String :=
  let digits := field.toList
  if !digits.isEmpty && digits.all Char.isDigit then
    match digits.dropWhile (· == '0') with
    | [] => "0"
    | significant => String.ofList significant
  else Text.quoted field

/-- The lookup of a reference in the context. -/
def lookup (reference : Reference) : String :=
  "ctx.get(" ++
    Text.commaSeparated
      (Text.quoted reference.root :: reference.path.map fieldExpression) ++ ")"

/-- One part of a text that is put together when the program runs. -/
def segmentExpression : Template.Segment → String
  | .literal text => Text.quoted text
  | .reference target => lookup target

/-- The expression of a template: its text when there is no reference in it,
the lookup when it is one reference, and else the parts put together. -/
def templateExpression : List Template.Segment → String
  | [] => Text.quoted ""
  | [segment] => segmentExpression segment
  | segments =>
      "_text(" ++ Text.commaSeparated (segments.map segmentExpression) ++ ")"

mutual

/-- The expression of a parameter value, with references resolved in the
context. -/
def valueExpression : Value → Except Template.Malformed String
  | .string text => (Template.segments text).map templateExpression
  | .array items => (valueExpressions items).map listExpression
  | .object members => (memberExpressions members).map dictionaryExpression
  | .null => .ok (literal .null)
  | .bool value => .ok (literal (.bool value))
  | .number value => .ok (literal (.number value))

def valueExpressions : List Value → Except Template.Malformed (List String)
  | [] => .ok []
  | item :: rest => do
      let first ← valueExpression item
      let later ← valueExpressions rest
      return first :: later

def memberExpressions :
    List (String × Value) → Except Template.Malformed (List String)
  | [] => .ok []
  | (key, value) :: rest => do
      let first ← valueExpression value
      let later ← memberExpressions rest
      return entry key first :: later

end

/-- The expression of a condition: the condition without blanks at its ends,
with a lookup in place of every reference. -/
def conditionExpression (condition : String) : String :=
  String.ofList
    (Template.substitute (fun reference => (lookup reference).toList)
      (Text.trim condition.toList))

end Workflow.Program
