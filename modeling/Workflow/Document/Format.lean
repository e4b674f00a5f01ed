import Workflow.Error
import Workflow.File.Name
import Workflow.Value.Reader
import Workflow.Yaml.Reader

/-!
# Notations of documents

Documents are written in JSON or in YAML.  Both are read into the same values,
so nothing that comes later can tell them apart.
-/

namespace Workflow

inductive DocumentFormat where
  | json
  | yaml
  deriving DecidableEq, Repr

namespace DocumentFormat

/-- The notation of a file: JSON by its extension in any case of letters, YAML
otherwise. -/
def ofFileName (name : String) : DocumentFormat :=
  match FileName.extension? name with
  | some extension =>
      if extension.map Char.toLower == "json" then .json else .yaml
  | none => .yaml

/-- Reads the value that a text stands for. -/
def parse? : DocumentFormat → String → Option Value
  | .json, text => Value.ofJson? text
  | .yaml, text => Value.ofYaml? text

def label : DocumentFormat → String
  | .json => "JSON"
  | .yaml => "YAML"

def parse (format : DocumentFormat) (text : String) : Except Error Value :=
  match format.parse? text with
  | some document => .ok document
  | none => .error (.unparsed ("the text is not " ++ format.label))

end DocumentFormat

end Workflow
