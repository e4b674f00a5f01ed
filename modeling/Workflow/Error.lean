import Workflow.Report.Issue

/-!
# Errors

Every way in which work on a document can end without a result.  A rejected
document carries the whole report, so that all issues are seen at once.  Only
defects of the document may be handed back to its author; a failed generation
is a fault of the generator.
-/

namespace Workflow

inductive Error where
  | unparsed (details : String)
  | documentNotFound (path : String)
  | io (reason : String)
  | rejected (report : Report)
  | generation (reason : String)
  | serialization (details : String)
  | configuration (reason : String)
  deriving DecidableEq, Repr

namespace Error

def code : Error → String
  | .unparsed _ => "TF-001"
  | .documentNotFound _ => "TF-002"
  | .io _ => "TF-003"
  | .rejected _ => "TF-010"
  | .generation _ => "TF-020"
  | .serialization _ => "TF-021"
  | .configuration _ => "TF-030"

/-- What is said about an error, without its code. -/
def text : Error → String
  | .unparsed details => "Failed to parse workflow document: " ++ details
  | .documentNotFound path => "Workflow file not found: " ++ path
  | .io reason => "IO error: " ++ reason
  | .rejected report => "Workflow specification rejected: " ++ report.summary
  | .generation reason => "Internal generator error: " ++ reason
  | .serialization details => "Failed to serialize workflow: " ++ details
  | .configuration reason => "Configuration error: " ++ reason

def message (error : Error) : String :=
  "[" ++ error.code ++ "] " ++ error.text

/-- Whether the author of the document is the one to mend it. -/
def isSpecificationDefect : Error → Bool
  | .unparsed _ | .rejected _ => true
  | _ => false

/-- The report of a rejected document. -/
def report? : Error → Option Report
  | .rejected report => some report
  | _ => none

def fix? : Error → Option String
  | .unparsed _ => some "Check JSON/YAML syntax: quoting and nesting"
  | .documentNotFound _ => some "Check the file path exists"
  | .io _ => some "Check file path and permissions"
  | .rejected _ =>
      some "Run `toolflow check <file>` to see every issue with its path"
  | .generation _ =>
      some "Report this as a toolflow bug together with the input document"
  | .serialization _ => none
  | .configuration _ =>
      some "Check the TOML syntax of the config file (see TOOLFLOW_CONFIG)"

/-- The name under which diagnostics list an error. -/
def diagnosticCode : Error → String
  | .unparsed _ => "toolflow::parse_error"
  | .documentNotFound _ => "toolflow::document_not_found"
  | .io _ => "toolflow::io"
  | .rejected _ => "toolflow::validation_failed"
  | .generation _ => "toolflow::generation_error"
  | .serialization _ => "toolflow::serialize_error"
  | .configuration _ => "toolflow::config_error"

/-- The explanation that diagnostics give. -/
def help? : Error → Option String
  | .unparsed _ => some "The document must be a JSON (or YAML) object"
  | .rejected _ =>
      some
        "Every issue is listed with its field path; fix them all and resubmit"
  | .generation _ =>
      some "This is a compiler bug, not a problem with the workflow document"
  | _ => none

end Error

end Workflow
