import Workflow.Condition.Problem
import Workflow.Name.Identifier
import Workflow.Name.NameSet
import Workflow.Name.Secret
import Workflow.Reference.Template
import Workflow.Report.Checked
import Workflow.Spec.Basic

/-!
# Findings about documents

What can be wrong with a document as such: keys that are missing or hold the
wrong shape, names that are no identifiers, conditions that are refused, routes
that lead nowhere.  Each finding has a kind, a severity and a wording, which
together with a path make an issue.
-/

namespace Workflow

inductive Finding where
  | notAnObject (what : String) (found : Value)
  | unknownKey (key : String)
  | missingKey (key : String)
  | notAString (key : String) (found : Value)
  | notAnArray (key : String) (found : Value)
  | notANodeArray (key : String) (found : Value)
  | notAnObjectAt (key : String) (found : Value)
  | invalidName (what name : String) (problem : Identifier.Problem)
  | duplicateName (what name : String)
  | invalidVersion (version : String)
  | secretFlag
  | secretExample (name : String)
  | unknownType (type : String)
  | nodeTypeNotAString (found : Value)
  | missingNodeType
  | unknownNodeType (type : String)
  | literalCredential (name : String)
  | malformedReference (malformed : Template.Malformed)
  | noSteps
  | refusedCondition (problem : Condition.Problem)
  | tooFewBranches (count : Nat)
  | unknownJoin (join : String)
  | noSubWorkflows
  | unknownTarget (target : String) (known : NameSet)
  | unknownDefault (target : String) (known : NameSet)
  | noRoute
  | neverRouted (name : String)

namespace Finding

def kind : Finding → IssueKind
  | .invalidName .. => .naming
  | .duplicateName .. => .naming
  | .refusedCondition .. => .condition
  | .unknownTarget .. => .reference
  | .unknownDefault .. => .reference
  | .neverRouted .. => .reference
  | _ => .structural

def severity : Finding → Severity
  | .unknownKey .. => .warning
  | .secretFlag => .warning
  | .secretExample .. => .warning
  | .literalCredential .. => .warning
  | .neverRouted .. => .warning
  | _ => .error

/-- The node types, as messages list them. -/
def nodeTypes : String :=
  "tool_call, sequential, conditional, parallel, orchestrator"

/-- The sub-workflows that there are. -/
def describe (known : NameSet) : String :=
  if known.isEmpty then "no sub-workflows are defined"
  else "known: " ++ Text.commaSeparated known.names

def message : Finding → String
  | .notAnObject what found =>
      s!"{what} must be an object, found {found.shape}"
  | .unknownKey key => s!"unknown key '{key}' is ignored"
  | .missingKey key => s!"missing required key '{key}'"
  | .notAString key found => s!"'{key}' must be a string, found {found.shape}"
  | .notAnArray key found => s!"'{key}' must be an array, found {found.shape}"
  | .notANodeArray key found =>
      s!"'{key}' must be an array of nodes, found {found.shape}"
  | .notAnObjectAt key found =>
      s!"'{key}' must be an object, found {found.shape}"
  | .invalidName what name problem =>
      s!"{what} '{name}' is not a valid identifier: {problem.message}"
  | .duplicateName what name => s!"duplicate {what} '{name}'"
  | .invalidVersion version =>
      s!"version '{version}' must look like X.Y.Z (e.g. 1.0.0)"
  | .secretFlag =>
      "'is_secret' is derived from the input name and cannot be set; the value is ignored"
  | .secretExample name =>
      s!"'{name}' is a secret input; its example is never emitted " ++
        "(the program reads it from the environment)"
  | .unknownType type =>
      s!"unknown type '{type}' (expected one of: " ++
        Text.commaSeparated (ParamType.all.map ParamType.text) ++ ")"
  | .nodeTypeNotAString found =>
      s!"node 'type' must be a string, found {found.shape}"
  | .missingNodeType =>
      s!"node is missing 'type' (expected one of: {nodeTypes})"
  | .unknownNodeType type =>
      s!"unknown node type '{type}' (expected one of: {nodeTypes})"
  | .literalCredential name =>
      s!"'{name}' looks like a credential; the literal value is not emitted and the program reads " ++
        environmentVariable name ++ " from the environment"
  | .malformedReference malformed => malformed.message
  | .noSteps => "sequential needs at least one step"
  | .refusedCondition problem => problem.message
  | .tooFewBranches count =>
      s!"parallel needs at least 2 branches, found {count}"
  | .unknownJoin join =>
      s!"unknown join policy '{join}' (expected 'wait-for-all' or 'first-to-finish')"
  | .noSubWorkflows => "orchestrator needs at least one sub-workflow"
  | .unknownTarget target known =>
      s!"target '{target}' is not a sub-workflow ({describe known})"
  | .unknownDefault target known =>
      s!"default '{target}' is not a sub-workflow ({describe known})"
  | .noRoute => "orchestrator needs at least one rule or a default"
  | .neverRouted name => s!"sub-workflow '{name}' is never routed to"

/-- The issue that a finding is at a path. -/
def issue (finding : Finding) (path : Path) : Issue :=
  ⟨finding.kind, finding.severity, path, finding.message⟩

def record (finding : Finding) (path : Path) : Checked Unit :=
  Checked.note (finding.issue path)

end Finding

end Workflow
