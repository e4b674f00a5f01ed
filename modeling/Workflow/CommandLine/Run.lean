import Workflow.CommandLine.Arguments
import Workflow.Compile
import Workflow.Config.Reader
import Workflow.Document.Format
import Workflow.File.Host

/-!
# Commands

What the commands print, and how they end.  The configuration is loaded before
the document, and nothing is written unless there is a program to write.
-/

namespace Workflow.CommandLine

variable {m : Type → Type} [Monad m]

/-- Where configurations are looked for: the file that the environment names,
and the place where a user keeps it. -/
structure Environment where
  configFile : Option String
  defaultConfig : String

/-- How a command ended, and what it printed. -/
structure Outcome where
  exitCode : Nat
  stdout : String
  stderr : String
  deriving DecidableEq, Repr

def lines (texts : List String) : String :=
  String.join (texts.map (· ++ "\n"))

/-- Loads a configuration from a file. -/
def loadConfigFile (host : Host m) (path : String) :
    ExceptT Error m Config := do
  let content ← host.readText path
  let loaded : Except Config.Problem Config :=
    match content with
    | .error error => .error (.unreadable path error.message)
    | .ok text => Config.ofToml text
  match loaded with
  | .ok config => return config
  | .error problem => throw (.configuration problem.message)

/-- Loads the configuration: from the file that is named, else from the one
that the environment names, else from the user's, if it is there. -/
def loadConfig
    (host : Host m) (environment : Environment) (named : Option String) :
    ExceptT Error m Config := do
  match named, environment.configFile.filter (· != "") with
  | some path, _ => loadConfigFile host path
  | none, some path => loadConfigFile host path
  | none, none =>
      if ← host.isThere environment.defaultConfig then
        loadConfigFile host environment.defaultConfig
      else return {}

def loadDocument (host : Host m) (path : String) : ExceptT Error m Value := do
  if ← host.isThere path then
    match ← host.readText path with
    | .error error => throw (.io error.message)
    | .ok text => (DocumentFormat.ofFileName path).parse text
  else throw (.documentNotFound path)

def issueLine (mark : String) (issue : Issue) : String :=
  "  " ++ mark ++ " [" ++ issue.kind.label ++ "] " ++ issue.place ++ " " ++
    issue.message

/-- The issues of a report, errors first. -/
def issueLines (report : Report) : List String :=
  report.errors.map (issueLine "✗") ++ report.warnings.map (issueLine "!")

/-- Prints a report as a document, or its issues and a verdict. -/
def reportOutcome (file : String) (json : Bool) (report : Report) : Outcome :=
  let exitCode := if report.isValid then 0 else 1
  if json then ⟨exitCode, report.toValue.pretty ++ "\n", ""⟩
  else
    let verdict :=
      if report.isValid then
        ("✓ Workflow '" ++ file ++ "' is valid") ::
          (if report.hasWarnings then
            ["  Warnings: " ++ toString report.warnings.length]
          else [])
      else ["✗ Workflow '" ++ file ++ "' rejected: " ++ report.summary]
    ⟨exitCode, lines verdict, lines (issueLines report)⟩

def programLines (compiled : Compiled) : List String :=
  ["  Tools: " ++ Text.commaSeparated compiled.tools.names] ++
    (if compiled.secretParams.isEmpty then []
    else ["  Secrets (from environment): " ++
      Text.commaSeparated compiled.secretParams.names]) ++
    ["  Spec hash: " ++ compiled.fingerprint]

/-- Writes a program to a file, or prints it. -/
def deliver (host : Host m) (output : Option String) (compiled : Compiled) :
    ExceptT Error m Outcome := do
  match output with
  | none => return ⟨0, compiled.source, lines (programLines compiled)⟩
  | some path =>
      match ← host.writeText path compiled.source with
      | .error error => throw (.io error.message)
      | .ok _ =>
          return ⟨0, "", lines (("✓ Wrote " ++ path) :: programLines compiled)⟩

/-- The line of a tool: whether it is known. -/
def toolLine (library : Library) (tool : String) : String :=
  tool ++ "\t" ++ (if (library.get? tool).isSome then "library" else "stub")

def runCommand (host : Host m) (config : Config) :
    Command → ExceptT Error m Outcome
  | .check file json => do
      let document ← loadDocument host file
      return reportOutcome file json (Document.check config.limits document)
  | .compile file output => do
      let document ← loadDocument host file
      deliver host output (← config.compile document)
  | .tools file => do
      let accepted ← config.accept (← loadDocument host file)
      return ⟨0,
        lines (accepted.spec.toolNames.names.map (toolLine config.library)),
        ""⟩
  | .format file => do
      let accepted ← config.accept (← loadDocument host file)
      return ⟨0, accepted.spec.canonical ++ "\n", ""⟩

/-- What is printed about an error: the error, its issues, and what may
help. -/
def errorOutcome (error : Error) : Outcome :=
  let issues := (error.report?.map issueLines).getD []
  let fix := error.fix?.toList.map ("  Fix: " ++ ·)
  ⟨1, "", lines (("Error: " ++ error.message) :: issues ++ fix)⟩

/-- Loads the configuration and runs a command. -/
def runInvocation
    (host : Host m) (environment : Environment) (invocation : Invocation) :
    m Outcome := do
  let result ← ExceptT.run do
    let config ← loadConfig host environment invocation.config
    runCommand host config invocation.command
  match result with
  | .ok outcome => return outcome
  | .error error => return errorOutcome error

def usage : List String :=
  ["Usage: toolflow [--config <CONFIG>] <COMMAND>",
    "",
    "Commands:",
    "  check <FILE> [--json]            Validate a workflow document and list every issue",
    "  compile <FILE> [-o <OUTPUT>]     Compile a workflow document to a Python program",
    "  tools <FILE>                     List the distinct tools a workflow uses",
    "  fmt <FILE>                       Print the canonical JSON form of a valid workflow"]

def run (host : Host m) (environment : Environment) (arguments : List String) :
    m Outcome :=
  match parse arguments with
  | .ok (.run invocation) => runInvocation host environment invocation
  | .ok .version => return ⟨0, lines [Program.generator], ""⟩
  | .ok .help => return ⟨0, lines usage, ""⟩
  | .error error =>
      return ⟨2, "", lines (("error: " ++ error.message) :: "" :: usage)⟩

end Workflow.CommandLine
