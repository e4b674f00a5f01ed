import Workflow.Name.NameSet
import Workflow.Program.Code
import Workflow.Program.Expression
import Workflow.Program.Library

/-!
# Tool functions of a program

Every tool has one function.  A known tool hands its arguments on to its
implementation; any other gets a placeholder, which only makes sure that the
credentials it is called with are there.
-/

namespace Workflow.Program

/-- The expression that reads a credential from the environment. -/
def environmentRead (name : String) : String :=
  "os.environ.get(" ++ Text.quoted (environmentVariable name) ++ ")"

/-- The guard of one credential of a placeholder. -/
def credentialGuard (tool param : String) : Code :=
  let reason :=
    "tool '" ++ tool ++ "' needs the " ++ environmentVariable param ++
      " environment variable (parameter '" ++ param ++ "')"
  .block ("if not " ++ environmentRead param ++ ":")
    [.line ("raise ConfigurationError(" ++ Text.quoted reason ++ ")")]

def placeholderBody (tool : String) (credentials : NameSet) : List Code :=
  .line (Text.quoted
      ("Placeholder for '" ++ tool ++
        "': no library implementation configured.")) ::
    credentials.names.map (credentialGuard tool) ++
    [.line ("return " ++ dictionaryExpression
      [entry "tool" (Text.quoted tool),
        entry "status" (Text.quoted "placeholder"),
        entry "params" "sorted(kwargs)"])]

/-- The body of the function of a known tool. -/
def delegationBody (implementation : LibraryEntry) : List Code :=
  [.line ("return _delegate(" ++ Text.commaSeparated
    [Text.quoted implementation.modulePath,
      Text.quoted implementation.function, "kwargs"] ++ ")")]

def toolFunction
    (library : Library) (credentials : String → NameSet) (tool : String) :
    Code :=
  .block ("def tool_" ++ tool ++ "(**kwargs):")
    (match library.get? tool with
      | some implementation => delegationBody implementation
      | none => placeholderBody tool (credentials tool))

/-- Pieces of code with two blank lines between neighbours. -/
def separated : List Code → List Code
  | [] => []
  | [code] => [code]
  | code :: rest => code :: .blank :: .blank :: separated rest

def toolFunctions
    (library : Library) (credentials : String → NameSet) (tools : NameSet) :
    List Code :=
  separated (tools.names.map (toolFunction library credentials))

end Workflow.Program
