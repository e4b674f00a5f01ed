import Workflow.Report.Path
import Workflow.Text.Joined
import Workflow.Value.Basic

/-!
# Issues and reports

Everything found in a document goes into one report.  An issue says what kind
it is, how severe, where it stands and what is wrong; errors and warnings are
listed apart, each in the order in which they were found, and only errors keep
a document from being accepted.
-/

namespace Workflow

inductive IssueKind where
  | structural
  | naming
  | condition
  | scope
  | reference
  | complexity
  deriving DecidableEq, Repr

namespace IssueKind

/-- All kinds, in the order in which summaries count them. -/
def all : List IssueKind :=
  [.structural, .naming, .condition, .scope, .reference, .complexity]

def label : IssueKind → String
  | .structural => "StructuralError"
  | .naming => "NamingError"
  | .condition => "ConditionError"
  | .scope => "ScopeError"
  | .reference => "ReferenceError"
  | .complexity => "ComplexityError"

/-- How a kind is written in report documents. -/
def tag : IssueKind → String
  | .structural => "structural"
  | .naming => "naming"
  | .condition => "condition"
  | .scope => "scope"
  | .reference => "reference"
  | .complexity => "complexity"

end IssueKind

/-- Whether an issue keeps a document from being accepted. -/
inductive Severity where
  | error
  | warning
  deriving DecidableEq, Repr

/-- How a severity is written in report documents. -/
def Severity.tag : Severity → String
  | .error => "error"
  | .warning => "warning"

structure Issue where
  kind : IssueKind
  severity : Severity
  path : Path
  message : String
  deriving DecidableEq, Repr

namespace Issue

def render (issue : Issue) : String :=
  let path := issue.path.render
  if path = "" then issue.kind.label ++ ": " ++ issue.message
  else issue.kind.label ++ ": " ++ path ++ ": " ++ issue.message

/-- Where an issue stands, as lists of issues show it. -/
def place (issue : Issue) : String :=
  let path := issue.path.render
  if path = "" then "<document>" else path

def toValue (issue : Issue) : Value :=
  .object [("kind", .string issue.kind.tag),
    ("severity", .string issue.severity.tag),
    ("path", .string issue.path.render), ("message", .string issue.message)]

end Issue

/-- All errors and all warnings about one document. -/
structure Report where
  errors : List Issue
  warnings : List Issue
  deriving DecidableEq, Repr

namespace Report

/-- The report of issues in the order in which they were found. -/
def ofIssues (issues : List Issue) : Report :=
  ⟨issues.filter (·.severity == .error),
    issues.filter (·.severity == .warning)⟩

/-- Whether nothing keeps the document from being accepted. -/
def isValid (report : Report) : Bool :=
  report.errors.isEmpty

def hasWarnings (report : Report) : Bool :=
  !report.warnings.isEmpty

/-- How many errors there are of each kind that occurs. -/
def counts (report : Report) : List (IssueKind × Nat) :=
  (IssueKind.all.map fun kind =>
    (kind, report.errors.countP (·.kind == kind))).filter
    fun count => 0 < count.2

/-- A number of things, with the plural where it belongs. -/
def counted (number : Nat) (thing : String) : String :=
  toString number ++ " " ++ thing ++ (if number = 1 then "" else "s")

def summary (report : Report) : String :=
  let kinds :=
    report.counts.map fun count => toString count.2 ++ " " ++ count.1.label
  counted report.errors.length "error" ++
    (if kinds.isEmpty then "" else " (" ++ Text.commaSeparated kinds ++ ")") ++
    (if report.hasWarnings then
      ", " ++ counted report.warnings.length "warning"
    else "")

/-- Numbered lines for the errors, from a number on. -/
def numbered (number : Nat) : List Issue → String
  | [] => ""
  | issue :: rest =>
      toString number ++ ". [" ++ issue.kind.label ++ "] " ++ issue.place ++
        ": " ++ issue.message ++ "\n" ++ numbered (number + 1) rest

/-- The errors as a request for corrections. -/
def feedback (report : Report) : String :=
  "The workflow specification has " ++
    counted report.errors.length "problem" ++ " to fix:\n" ++
    numbered 1 report.errors

def toValue (report : Report) : Value :=
  .object [("errors", .array (report.errors.map Issue.toValue)),
    ("warnings", .array (report.warnings.map Issue.toValue))]

end Report

end Workflow
