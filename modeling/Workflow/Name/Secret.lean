import Workflow.Text.Span

/-!
# Names of credentials

Whether a name stands for a credential is read off the name alone.  The same
rule classifies inputs and tool parameters, and a credential is always read
from the environment variable whose name is the credential's name in capitals.
-/

namespace Workflow

namespace Secret

/-- A name with one of these anywhere in it is a credential. -/
def markers : List String :=
  ["key", "token", "password", "passwd", "secret", "credential", "auth",
    "webhook"]

/-- A name with one of these at its end is a credential: connection strings. -/
def endings : List String :=
  ["connection_string", "conn_string", "conn_str", "_dsn"]

end Secret

/-- Whether a name stands for a credential, the case of its letters apart. -/
def isSecretName (name : String) : Bool :=
  let letters := name.toList.map Char.toLower
  Secret.markers.any (fun marker => Text.occursIn marker.toList letters) ||
    Secret.endings.any fun ending => ending.toList.isSuffixOf letters

/-- The environment variable from which a credential is read. -/
def environmentVariable (name : String) : String :=
  String.ofList (name.toList.map Char.toUpper)

end Workflow
