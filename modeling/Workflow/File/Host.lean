/-!
# Files of a host

What the command line needs of the machine it runs on: to know whether a file
is there, to read it, and to write it.  The commands work with any monad that
offers this.
-/

namespace Workflow

/-- Why a file cannot be read or written. -/
inductive FileError where
  | notFound
  | notDirectory
  | isDirectory
  | nameTooLong
  | notText
  | other (reason : String)
  deriving DecidableEq, Repr

def FileError.message : FileError → String
  | .notFound => "No such file or directory (os error 2)"
  | .notDirectory => "Not a directory (os error 20)"
  | .isDirectory => "Is a directory (os error 21)"
  | .nameTooLong => "File name too long (os error 36)"
  | .notText => "stream did not contain valid UTF-8"
  | .other reason => reason

structure Host (m : Type → Type) where
  isThere : String → m Bool
  readText : String → m (Except FileError String)
  writeText : String → String → m (Except FileError Unit)

end Workflow
