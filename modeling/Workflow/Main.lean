import Workflow.CommandLine.Run

/-!
# The program

Connects the commands with the files, the environment and the streams of the
machine.
-/

namespace Workflow

/-- Whether a code of the machine, which comes with either sign, is the given
one. -/
def isErrorCode (osCode number : UInt32) : Bool :=
  osCode == number || osCode == 0 - number

/-- The error that the machine reports for a file. -/
def FileError.ofSystem : IO.Error → FileError
  | .noFileOrDirectory .. => .notFound
  | .inappropriateType _ osCode _ =>
      if isErrorCode osCode 21 then .isDirectory else .notDirectory
  | error@(.invalidArgument _ osCode _) =>
      if isErrorCode osCode 36 then .nameTooLong else .other (toString error)
  | error => .other (toString error)

/-- Does something with a file, and reports why it could not. -/
def attempt {α : Type} (action : IO α) : IO (Except FileError α) := do
  try
    return .ok (← action)
  catch error =>
    return .error (.ofSystem error)

def Host.machine : Host IO where
  isThere name := do
    match ← attempt (IO.FS.realPath name) with
    | .ok _ => return true
    | .error _ => return false
  readText name := do
    match ← attempt (IO.FS.readBinFile name) with
    | .error error => return .error error
    | .ok content =>
        match String.fromUTF8? content with
        | some text => return .ok text
        | none => return .error .notText
  writeText name text := attempt (IO.FS.writeFile name text)

end Workflow

open Workflow

/-- Runs the program on its arguments. -/
def main (arguments : List String) : IO UInt32 := do
  let home := (← IO.getEnv "HOME").getD "."
  let environment : CommandLine.Environment :=
    ⟨← IO.getEnv "TOOLFLOW_CONFIG", home ++ "/.config/toolflow/config.toml"⟩
  let outcome ← CommandLine.run Host.machine environment arguments
  IO.print outcome.stdout
  IO.eprint outcome.stderr
  return outcome.exitCode.toUInt32
