import Workflow.Analysis.Acceptance
import Workflow.Config.Basic
import Workflow.Error
import Workflow.Program.Source

/-!
# Compilation

The one way from a document to a program: the document is accepted, then its
program is written and self-checked.
-/

namespace Workflow

/-- A program, with what its user should know about it. -/
structure Compiled where
  source : String
  secretParams : NameSet
  tools : NameSet
  fingerprint : String

namespace Spec

/-- Every credential of a workflow: secret inputs and credential parameters. -/
def secretParams (spec : Spec) : NameSet :=
  spec.secretInputs.union spec.workflow.allCredentials

end Spec

namespace Config

def accept (config : Config) (document : Value) : Except Error Accepted :=
  match Document.accept config.limits document with
  | .error report => .error (.rejected report)
  | .ok accepted => .ok accepted

/-- Writes the program of an accepted workflow. -/
def emit (config : Config) (accepted : Accepted) : Except Error Compiled :=
  match Program.source config.library accepted.spec with
  | .error fault => .error (.generation fault.message)
  | .ok source =>
      .ok ⟨source, accepted.spec.secretParams, accepted.spec.toolNames,
        accepted.spec.fingerprint⟩

def compile (config : Config) (document : Value) : Except Error Compiled := do
  config.emit (← config.accept document)

end Config

end Workflow
