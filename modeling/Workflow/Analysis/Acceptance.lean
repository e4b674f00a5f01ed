import Workflow.Analysis.Limits
import Workflow.Analysis.Scope
import Workflow.Document.SpecReader

/-!
# Accepted workflows

A document is read, measured against the limits and analysed, and all findings
go into one report.  It is accepted when it could be read and the report holds
no errors: the whole of it, or none of it.
-/

namespace Workflow

/-- A workflow that passed every check, with the warnings about it. -/
structure Accepted where
  spec : Spec
  warnings : List Issue

def Violation.issue (violation : Violation) : Issue :=
  ⟨.complexity, .error, violation.path, violation.excess.message⟩

/-- The issue that an unbound reference is. -/
def ScopeError.issue (error : ScopeError) : Issue :=
  ⟨.scope, .error, error.path, error.message⟩

/-- The issue that a contested name is. -/
def ScopeWarning.issue (warning : ScopeWarning) : Issue :=
  ⟨.scope, .warning, warning.path, warning.message⟩

namespace Spec

/-- The issues of a specification as a whole: excesses, unbound references,
contested names. -/
def issues (spec : Spec) (limits : Limits) : List Issue :=
  let scope := spec.analyze
  (limits.violations (.field .document "workflow") spec.workflow).map
    Violation.issue ++ scope.errors.map ScopeError.issue ++
    scope.warnings.map ScopeWarning.issue

end Spec

namespace Document

/-- Reads a document and inspects what was read. -/
def inspect (limits : Limits) (document : Value) : Checked (Option Spec) :=
  let read := readSpec document
  match read.value with
  | some spec => ⟨some spec, read.issues ++ spec.issues limits⟩
  | none => read

/-- Every error and warning about a document. -/
def check (limits : Limits) (document : Value) : Report :=
  Report.ofIssues (inspect limits document).issues

/-- Accepts a document, or gives the report that says why not. -/
def accept (limits : Limits) (document : Value) : Except Report Accepted :=
  let inspected := inspect limits document
  let report := Report.ofIssues inspected.issues
  match inspected.value with
  | some spec =>
      if report.isValid then .ok ⟨spec, report.warnings⟩ else .error report
  | none => .error report

end Document

end Workflow
