import Workflow.Condition.Check
import Workflow.Document.Field
import Workflow.Name.Sorted

/-!
# Reading workflow trees

A tree is read from a document value, and every problem on the way is recorded.
Problems that leave the shape of a node intact, such as a bad name or a refused
condition, keep the node; a node of unusable shape is dropped, and with it all
nodes above it, but only after its neighbours have been read as well.
-/

namespace Workflow.Document

/-- Records a condition that is refused. -/
def recordCondition (condition : String) (path : Path) : Checked Unit :=
  match Condition.check condition with
  | .ok _ => pure ()
  | .error problem => (Finding.refusedCondition problem).record path

/-- Records what is wrong about one parameter. -/
def recordParam (name : String) (value : Value) (path : Path) :
    Checked Unit := do
  recordName name path "parameter name"
  match value.references with
  | .ok references =>
      if references.isEmpty && !value.isNull && isSecretName name then
        (Finding.literalCredential name).record path
  | .error malformed => (Finding.malformedReference malformed).record path

/-- Records what is wrong about parameters, in order. -/
def recordParams (path : Path) : List (String × Value) → Checked Unit
  | [] => pure ()
  | (name, value) :: rest => do
      recordParam name value (.field path name)
      recordParams path rest

def readParams (members : Members) (path : Path) : Checked (Option Members) :=
  match members.get? "params" with
  | none => pure (some [])
  | some .null => pure (some [])
  | some (.object params) => do
      recordParams (.field path "params") params
      return some params
  | some other => do
      (Finding.notAnObjectAt "params" other).record (.field path "params")
      return none

def readCall (members : Members) (path : Path) : Checked (Option Node) := do
  recordUnknownKeys ["type", "tool", "params", "output"] path members.keys
  let tool? ← requiredText members "tool" path
  match tool? with
  | some tool => recordName tool (.field path "tool") "tool name"
  | none => pure ()
  let params? ← readParams members path
  let output? ← optionalText members "output" path
  match output? with
  | some (some target) =>
      recordName target (.field path "output") "binding target"
  | _ => pure ()
  return do
    let params ← params?
    let output ← output?
    let tool ← tool?
    return .call ⟨tool, params, output⟩

def readJoin (members : Members) (path : Path) :
    Checked (Option JoinPolicy) := do
  match ← requiredText members "join" path with
  | none => return none
  | some text =>
      match JoinPolicy.ofText? text with
      | some policy => return some policy
      | none =>
          (Finding.unknownJoin text).record (.field path "join")
          return none

/-- One rule of an orchestrator. Targets are looked up among known names, if
there are any to look among. -/
def readRule (known? : Option NameSet) (value : Value) (path : Path) :
    Checked (Option Rule) := do
  match ← members? value path "a routing rule" with
  | none => return none
  | some members =>
      recordUnknownKeys ["condition", "target"] path members.keys
      let condition? ← requiredText members "condition" path
      match condition? with
      | some condition => recordCondition condition (.field path "condition")
      | none => pure ()
      let target? ← requiredText members "target" path
      match target?, known? with
      | some target, some known =>
          if target ∉ known then
            (Finding.unknownTarget target known).record (.field path "target")
      | _, _ => pure ()
      return do
        let condition ← condition?
        let target ← target?
        return ⟨condition, target⟩

/-- Rules from a position on; all are read, even if one is unusable. -/
def readRulesFrom (known? : Option NameSet) (path : Path) (position : Nat) :
    List Value → Checked (Option (List Rule))
  | [] => pure (some [])
  | item :: rest => do
      let rule? ← readRule known? item (path.item "rules" position)
      let rules? ← readRulesFrom known? path (position + 1) rest
      return do
        let rule ← rule?
        let rules ← rules?
        return rule :: rules

def readRules (known? : Option NameSet) (members : Members) (path : Path) :
    Checked (Option (List Rule)) :=
  match members.get? "rules" with
  | none => pure (some [])
  | some .null => pure (some [])
  | some (.array items) => readRulesFrom known? path 0 items
  | some other => do
      (Finding.notAnArray "rules" other).record (.field path "rules")
      return none

/-- Names of the sub-workflows of an orchestrator, usable or not. -/
def subWorkflowNames (members : Members) : NameSet :=
  match members.get? "sub_workflows" with
  | some (.object routes) => NameSet.ofList (Members.keys routes)
  | _ => ∅

/-- Records sub-workflows that no rule and no default leads to, when anything
is routed at all. -/
def recordUnrouted (routed : List String) (path : Path) :
    List String → Checked Unit
  | [] => pure ()
  | name :: rest => do
      if !routed.isEmpty && !routed.contains name then
        (Finding.neverRouted name).record
          (.field (.field path "sub_workflows") name)
      recordUnrouted routed path rest

/-- Records what is wrong about where an orchestrator leads, given its rules
and its default as far as they are usable. -/
def recordRouting (known : NameSet) (path : Path) (rules? : Option (List Rule))
    (fallback? : Option (Option String)) : Checked Unit :=
  match rules?, fallback? with
  | some rules, some fallback => do
      if rules.isEmpty && fallback.isNone then
        Finding.noRoute.record path
      recordUnrouted (rules.map Rule.target ++ fallback.toList) path
        known.names
  | _, _ => pure ()

def readFallback (known? : Option NameSet) (members : Members) (path : Path) :
    Checked (Option (Option String)) := do
  let fallback? ← optionalText members "default" path
  match fallback?, known? with
  | some (some target), some known =>
      if target ∉ known then
        (Finding.unknownDefault target known).record (.field path "default")
  | _, _ => pure ()
  return fallback?

/-- The rest of an orchestrator, once its routes have been read. -/
def readDispatch
    (routes? : Option (List (String × Node))) (members : Members)
    (path : Path) : Checked (Option Node) := do
  let known := subWorkflowNames members
  let known? := routes?.map fun _ => known
  let rules? ← readRules known? members path
  let fallback? ← readFallback known? members path
  recordRouting known path rules? fallback?
  return do
    let routes ← routes?
    let rules ← rules?
    let fallback ← fallback?
    return .dispatch (Sorted.ofList routes) rules fallback

mutual

/-- A tree, or nothing when its shape is unusable. -/
def readNode (value : Value) (path : Path) : Checked (Option Node) :=
  match value with
  | .object members =>
      match Members.get? members "type" with
      | some (.string "tool_call") => readCall members path
      | some (.string "sequential") => readSequence members path
      | some (.string "conditional") => readBranch members path
      | some (.string "parallel") => readFanout members path
      | some (.string "orchestrator") => readOrchestrator members path
      | some (.string other) => do
          (Finding.unknownNodeType other).record (.field path "type")
          return none
      | some other => do
          (Finding.nodeTypeNotAString other).record (.field path "type")
          return none
      | none => do
          Finding.missingNodeType.record path
          return none
  | other => do
      (Finding.notAnObject "a workflow node" other).record path
      return none
termination_by (sizeOf value, 0)

/-- Nodes from a position on; all are read, even if one is unusable. -/
def readNodesFrom
    (path : Path) (key : String) (position : Nat) (items : List Value) :
    Checked (Option (List Node)) :=
  match items with
  | [] => pure (some [])
  | item :: rest => do
      let node? ← readNode item (path.item key position)
      let nodes? ← readNodesFrom path key (position + 1) rest
      return do
        let node ← node?
        let nodes ← nodes?
        return node :: nodes
termination_by (sizeOf items, 0)

/-- The nodes of an array that has to be there. -/
def readNodes (members : Members) (key : String) (path : Path) :
    Checked (Option (List Node)) :=
  match _found : members.get? key with
  | some (.array items) => readNodesFrom path key 0 items
  | some other => do
      (Finding.notANodeArray key other).record (.field path key)
      return none
  | none => do
      (Finding.missingKey key).record path
      return none
termination_by (sizeOf members, 0)
decreasing_by
  have := Members.sizeOf_get? _found
  simp at this
  omega

def readSequence (members : Members) (path : Path) :
    Checked (Option Node) := do
  recordUnknownKeys ["type", "steps"] path members.keys
  match ← readNodes members "steps" path with
  | none => return none
  | some steps =>
      if steps.isEmpty then
        Finding.noSteps.record (.field path "steps")
      return some (.sequence steps)
termination_by (sizeOf members, 1)

def readBranch (members : Members) (path : Path) : Checked (Option Node) := do
  recordUnknownKeys ["type", "condition", "if_true", "if_false"] path
    members.keys
  let condition? ← requiredText members "condition" path
  match condition? with
  | some condition => recordCondition condition (.field path "condition")
  | none => pure ()
  let whenTrue? ← readChild members "if_true" path
  let otherwise? ← readOptionalChild members "if_false" path
  return do
    let condition ← condition?
    let whenTrue ← whenTrue?
    let otherwise ← otherwise?
    return .branch condition whenTrue otherwise
termination_by (sizeOf members, 1)

def readChild (members : Members) (key : String) (path : Path) :
    Checked (Option Node) :=
  match _found : members.get? key with
  | some value => readNode value (.field path key)
  | none => do
      (Finding.missingKey key).record path
      return none
termination_by (sizeOf members, 0)
decreasing_by exact Prod.Lex.left _ _ (Members.sizeOf_get? _found)

/-- A child that may be absent or null; nothing at all when it is unusable. -/
def readOptionalChild (members : Members) (key : String) (path : Path) :
    Checked (Option (Option Node)) :=
  match _found : members.get? key with
  | none => pure (some none)
  | some .null => pure (some none)
  | some value => do
      let node? ← readNode value (.field path key)
      return node?.map some
termination_by (sizeOf members, 0)
decreasing_by exact Prod.Lex.left _ _ (Members.sizeOf_get? _found)

def readFanout (members : Members) (path : Path) : Checked (Option Node) := do
  recordUnknownKeys ["type", "branches", "join"] path members.keys
  let branches? ← readNodes members "branches" path
  match branches? with
  | some branches =>
      if branches.length < 2 then
        (Finding.tooFewBranches branches.length).record
          (.field path "branches")
  | none => pure ()
  let join? ← readJoin members path
  return do
    let branches ← branches?
    let join ← join?
    return .fanout branches join
termination_by (sizeOf members, 1)

/-- Routes in document order; all are read, even if one is unusable. -/
def readRoutesFrom (path : Path) (entries : List (String × Value)) :
    Checked (Option (List (String × Node))) :=
  match entries with
  | [] => pure (some [])
  | (name, value) :: rest => do
      recordName name (.field path name) "sub-workflow name"
      let node? ← readNode value (.field path name)
      let routes? ← readRoutesFrom path rest
      return do
        let node ← node?
        let routes ← routes?
        return (name, node) :: routes
termination_by (sizeOf entries, 0)

def readRoutes (members : Members) (path : Path) :
    Checked (Option (List (String × Node))) :=
  match _found : members.get? "sub_workflows" with
  | some (.object entries) => do
      if entries.isEmpty then
        Finding.noSubWorkflows.record (.field path "sub_workflows")
      readRoutesFrom (.field path "sub_workflows") entries
  | some other => do
      (Finding.notAnObjectAt "sub_workflows" other).record
        (.field path "sub_workflows")
      return none
  | none => do
      (Finding.missingKey "sub_workflows").record path
      return none
termination_by (sizeOf members, 0)
decreasing_by
  have := Members.sizeOf_get? _found
  simp at this
  omega

def readOrchestrator (members : Members) (path : Path) :
    Checked (Option Node) := do
  recordUnknownKeys ["type", "sub_workflows", "rules", "default"] path
    members.keys
  let routes? ← readRoutes members path
  readDispatch routes? members path
termination_by (sizeOf members, 1)

end

end Workflow.Document
