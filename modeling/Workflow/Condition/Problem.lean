import Workflow.Text.Joined
import Workflow.Text.Quoted

/-!
# What is wrong with a condition

A condition is pasted into the program once its references have become lookups,
so its text is checked closely.  This module names the reasons for which one is
refused, and the names that a condition may use beside its references.
-/

namespace Workflow.Condition

/-- Names that a condition may use: operators, constants and a few pure
functions. -/
def allowedNames : List String :=
  ["and", "or", "not", "in", "is", "if", "else", "None", "True", "False",
    "len", "str", "int", "float", "bool", "abs", "min", "max", "round", "sum",
    "any", "all", "sorted"]

/-- Quotes or brackets that do not match. -/
inductive Imbalance where
  | openQuote (quote : Char)
  | unexpected (bracket : Char)
  | neverClosed (bracket : Char)
  deriving DecidableEq, Repr

/-- What is said about unmatched quotes or brackets. -/
def Imbalance.message : Imbalance → String
  | .openQuote quote => s!"unterminated string literal (missing {quote})"
  | .unexpected bracket => s!"unexpected '{bracket}'"
  | .neverClosed bracket => s!"'{bracket}' is never closed"

inductive Problem where
  | empty
  | statementSeparator
  | assignment
  | forbiddenToken (token : String)
  | unknownName (name : String)
  | noOperator
  | malformedReference (fragment : String)
  | unbalanced (imbalance : Imbalance)
  deriving DecidableEq, Repr

/-- What is said about a refused condition. -/
def Problem.message : Problem → String
  | .empty => "condition is empty"
  | .statementSeparator =>
      "condition must be a single expression (no ';' or line breaks)"
  | .assignment => "condition contains an assignment; use '==' to compare"
  | .forbiddenToken token =>
      "condition contains forbidden token '" ++ token ++ "'"
  | .unknownName name =>
      "condition uses '" ++ name ++
        "', which is neither a \x7b\x7breference\x7d\x7d nor an allowed name (" ++
        Text.commaSeparated allowedNames ++ ")"
  | .noOperator =>
      "condition has no comparison or logical operator (> < == != >= <= and or not in is)"
  | .malformedReference fragment =>
      "malformed reference '" ++ fragment ++
        "' in condition (expected \x7b\x7bname\x7d\x7d or \x7b\x7bname.field\x7d\x7d)"
  | .unbalanced imbalance =>
      "condition is not well formed: " ++ imbalance.message

/-- A character that cannot be shown, as its code point in braces. -/
def codePointText (c : Char) : String :=
  "\\u\x7b" ++ String.ofList (Text.hexDigits c.toNat) ++ "\x7d"

end Workflow.Condition
