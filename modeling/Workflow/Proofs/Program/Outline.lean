import Workflow.Proofs.Program.Indentation
import Workflow.Proofs.Program.TreeCode

/-!
# Outlines of trees

What is left of a tree in its program: steps in a row where the tree has
sequences inside sequences, tool calls as the text that calls them, conditions
as expressions.  The code of a lawful tree is that of its outline, and it can
be read back from its text line by line.
-/

namespace Workflow.Program

/-- A step of a program.  What runs below it is a row of steps, so that no step
is a sequence. -/
inductive Step where
  | call (expression : Except Template.Malformed String)
      (target : Option String)
  | branch (condition : String) (whenTrue : List Step)
      (otherwise : Option (List Step))
  | fanout (branches : List (List Step)) (join : JoinPolicy)
  | dispatch (routes : List (String × List Step)) (rules : List Rule)
      (fallback : Option String)

def spellRule (rule : Rule) : Rule :=
  ⟨conditionExpression rule.condition, rule.target⟩

mutual

/-- The steps of a tree: a sequence is spliced into the row it stands in. -/
def outline : Node → List Step
  | .call invocation => [.call (callExpression invocation) invocation.output]
  | .sequence steps => outlineSteps steps
  | .branch condition whenTrue none =>
      [.branch (conditionExpression condition) (outline whenTrue) none]
  | .branch condition whenTrue (some otherwise) =>
      [.branch (conditionExpression condition) (outline whenTrue)
        (some (outline otherwise))]
  | .fanout branches join => [.fanout (outlineBranches branches) join]
  | .dispatch routes rules fallback =>
      [.dispatch (outlineRoutes routes) (rules.map spellRule) fallback]

def outlineSteps : List Node → List Step
  | [] => []
  | node :: rest => outline node ++ outlineSteps rest

def outlineBranches : List Node → List (List Step)
  | [] => []
  | node :: rest => outline node :: outlineBranches rest

def outlineRoutes : List (String × Node) → List (String × List Step)
  | [] => []
  | (name, node) :: rest => (name, outline node) :: outlineRoutes rest

end

/-- The line of a call, given the text that calls the tool. -/
def callText (text : String) : Option String → String
  | some target => "ctx.set(" ++ Text.quoted target ++ ", " ++ text ++ ")"
  | none => text

def callCode
    (expression : Except Template.Malformed String) (target : Option String) :
    List Code :=
  match expression with
  | .error _ => []
  | .ok text => [.line (callText text target)]

/-- Rules whose conditions are expressions already. -/
def ruleCode (number : Nat) (keyword : String) : List Rule → List Code
  | [] => []
  | rule :: rest =>
      .block (keyword ++ " " ++ rule.condition ++ ":")
        [routeLine number rule.target] :: ruleCode number "elif" rest

def fallbackLine (number : Nat) : Option String → Code
  | some target => routeLine number target
  | none => .line "pass"

def choiceCode (number : Nat) (rules : List Rule) (fallback : Option String) :
    List Code :=
  match rules with
  | [] => fallback.toList.map (routeLine number)
  | rule :: rest =>
      ruleCode number "if" (rule :: rest) ++
        [.block "else:" [fallbackLine number fallback]]

namespace Step

mutual

/-- The names that a step binds somewhere. -/
def targets : Step → List String
  | .call _ target => target.toList
  | .branch _ whenTrue none => targetsAll whenTrue
  | .branch _ whenTrue (some otherwise) =>
      targetsAll whenTrue ++ targetsAll otherwise
  | .fanout branches _ => targetsUnits branches
  | .dispatch routes _ _ => targetsRoutes routes

def targetsAll : List Step → List String
  | [] => []
  | step :: rest => targets step ++ targetsAll rest

def targetsUnits : List (List Step) → List String
  | [] => []
  | steps :: rest => targetsAll steps ++ targetsUnits rest

def targetsRoutes : List (String × List Step) → List String
  | [] => []
  | (_, steps) :: rest => targetsAll steps ++ targetsRoutes rest

end

mutual

/-- The code of a step; `last` is the last number given out before it. -/
def emit (last : Nat) : Step → Numbered
  | .call expression target => ⟨callCode expression target, last⟩
  | .branch condition whenTrue none =>
      let first := emitAll last whenTrue
      ⟨[.block ("if " ++ condition ++ ":") first.code], first.last⟩
  | .branch condition whenTrue (some otherwise) =>
      let first := emitAll last whenTrue
      let second := emitAll first.last otherwise
      ⟨[.block ("if " ++ condition ++ ":") first.code,
          .block "else:" second.code], second.last⟩
  | .fanout branches join =>
      let units := emitUnits (last + 1) (last + 1) 0 branches
      let bound := NameSet.ofList (targetsUnits branches)
      ⟨units.code ++ [joinCode (last + 1) branches.length bound join],
        units.last⟩
  | .dispatch routes rules fallback =>
      let functions := emitRoutes (last + 1) (last + 1) routes
      ⟨functions.code ++ choiceCode (last + 1) rules fallback, functions.last⟩

def emitAll (last : Nat) : List Step → Numbered
  | [] => ⟨[], last⟩
  | step :: rest =>
      let first := emit last step
      let later := emitAll first.last rest
      ⟨first.code ++ later.code, later.last⟩

def emitUnits (number last position : Nat) : List (List Step) → Numbered
  | [] => ⟨[], last⟩
  | steps :: rest =>
      let first := emitAll last steps
      let later := emitUnits number first.last (position + 1) rest
      ⟨.block ("def " ++ unitName number position ++ "(ctx):") first.code ::
          later.code, later.last⟩

def emitRoutes (number last : Nat) : List (String × List Step) → Numbered
  | [] => ⟨[], last⟩
  | (name, steps) :: rest =>
      let first := emitAll last steps
      let later := emitRoutes number first.last rest
      ⟨.block ("def " ++ routeName number name ++ "(ctx):") first.code ::
          later.code, later.last⟩

end

theorem emitAll_append (last : Nat) (first second : List Step) :
    emitAll last (first ++ second) =
      ⟨(emitAll last first).code ++
        (emitAll (emitAll last first).last second).code,
        (emitAll (emitAll last first).last second).last⟩ := by
  induction first generalizing last with
  | nil => rfl
  | cons step rest induction => simp [emitAll, induction]

theorem emitAll_singleton (last : Nat) (step : Step) :
    emitAll last [step] = emit last step := by
  simp [emitAll]

theorem targetsAll_append (first second : List Step) :
    targetsAll (first ++ second) = targetsAll first ++ targetsAll second := by
  induction first with
  | nil => rfl
  | cons step rest induction => simp [targetsAll, induction]

end Step

open Step

theorem ruleBlocks_eq_ruleCode
    (number : Nat) (keyword : String) (rules : List Rule) :
    ruleBlocks number keyword rules =
      ruleCode number keyword (rules.map spellRule) := by
  induction rules generalizing keyword with
  | nil => rfl
  | cons rule rest induction =>
      simp only [ruleBlocks, List.map_cons, ruleCode, induction, spellRule]

theorem routeChoice_eq_choiceCode
    (number : Nat) {rules : List Rule} {fallback : Option String}
    (leads : rules ≠ [] ∨ fallback ≠ none) :
    routeChoice number rules fallback =
      .ok (choiceCode number (rules.map spellRule) fallback) := by
  cases rules with
  | nil =>
      cases fallback with
      | none => simp at leads
      | some target => rfl
  | cons rule rest =>
      have blocks := ruleBlocks_eq_ruleCode number "if" (rule :: rest)
      have behind : ∀ last,
          (Except.ok (ruleBlocks number "if" (rule :: rest) ++ last) :
            Except TreeFault (List Code)) =
            .ok
              (ruleCode number "if" ((rule :: rest).map spellRule) ++ last) :=
        fun last => by
        rw [blocks]
      cases fallback with
      | none => exact behind _
      | some target => exact behind _

theorem callLine_eq_ok {call : ToolCall} {text : String}
    (written : callExpression call = .ok text) :
    callLine call = .ok (.line (callText text call.output)) := by
  simp only [callLine, written]
  cases call.output with
  | none => rfl
  | some target => rfl

mutual

theorem targetsAll_outline (node : Node) :
    targetsAll (outline node) = node.calls.filterMap ToolCall.output := by
  cases node with
  | call invocation =>
      cases target : invocation.output with
      | none => simp [outline, targetsAll, targets, Node.calls, target]
      | some name => simp [outline, targetsAll, targets, Node.calls, target]
  | sequence steps => exact targetsAll_outlineSteps steps
  | branch condition whenTrue otherwise =>
      cases otherwise with
      | none =>
          simp [outline, targetsAll, targets, Node.calls,
            targetsAll_outline whenTrue]
      | some otherwise =>
          simp [outline, targetsAll, targets, Node.calls,
            targetsAll_outline whenTrue, targetsAll_outline otherwise]
  | fanout branches join =>
      simp [outline, targetsAll, targets, Node.calls,
        targetsUnits_outlineBranches branches]
  | dispatch routes rules fallback =>
      simp [outline, targetsAll, targets, Node.calls,
        targetsRoutes_outlineRoutes routes]

theorem targetsAll_outlineSteps (steps : List Node) :
    targetsAll (outlineSteps steps) =
      (Node.callsList steps).filterMap ToolCall.output := by
  cases steps with
  | nil => rfl
  | cons node rest =>
      simp [outlineSteps, Node.callsList, targetsAll_append,
        targetsAll_outline node, targetsAll_outlineSteps rest]

theorem targetsUnits_outlineBranches (branches : List Node) :
    targetsUnits (outlineBranches branches) =
      (Node.callsList branches).filterMap ToolCall.output := by
  cases branches with
  | nil => rfl
  | cons node rest =>
      simp [outlineBranches, targetsUnits, Node.callsList,
        targetsAll_outline node, targetsUnits_outlineBranches rest]

theorem targetsRoutes_outlineRoutes (routes : List (String × Node)) :
    targetsRoutes (outlineRoutes routes) =
      (Node.callsRoutes routes).filterMap ToolCall.output := by
  cases routes with
  | nil => rfl
  | cons route rest =>
      simp [outlineRoutes, targetsRoutes, Node.callsRoutes,
        targetsAll_outline route.2, targetsRoutes_outlineRoutes rest]

end

theorem length_outlineBranches (branches : List Node) :
    (outlineBranches branches).length = branches.length := by
  induction branches with
  | nil => rfl
  | cons node rest induction => simp [outlineBranches, induction]

theorem exists_callExpression {call : ToolCall} (lawful : call.Lawful) :
    ∃ text, callExpression call = .ok text ∧ text.toList.head? = some 't' := by
  obtain ⟨expressions, written, _⟩ := exists_argumentExpressions lawful.params
  refine ⟨"tool_" ++ call.tool ++ "(" ++
      Text.commaSeparated (arguments expressions) ++ ")", ?_, ?_⟩
  · simp only [callExpression, written, ok_bind]
    rfl
  · simp

mutual

/-- The code of a lawful tree is the code of its outline. -/
theorem treeCode_eq_emitAll (last : Nat) {node : Node} (lawful : node.Lawful) :
    treeCode last node = .ok (emitAll last (outline node)) := by
  cases node with
  | call invocation =>
      obtain ⟨text, written, _⟩ := exists_callExpression lawful
      rw [outline, emitAll_singleton, emit, written]
      simp only [treeCode, callLine_eq_ok written, ok_bind]
      rfl
  | sequence steps => exact stepCode_eq_emitAll last lawful.2
  | branch condition whenTrue otherwise =>
      cases otherwise with
      | none =>
          rw [outline, emitAll_singleton]
          simp only [treeCode, treeCode_eq_emitAll last lawful.2, ok_bind]
          rfl
      | some otherwise =>
          rw [outline, emitAll_singleton]
          simp only [treeCode, treeCode_eq_emitAll last lawful.2.1,
            treeCode_eq_emitAll _ lawful.2.2, ok_bind]
          rfl
  | fanout branches join =>
      have units := unitCode_eq_emitUnits (last + 1) (last + 1) 0 lawful.2
      rw [outline, emitAll_singleton, emit, length_outlineBranches,
        targetsUnits_outlineBranches]
      simp only [treeCode, units, ok_bind, joinLine_eq_joinCode]
      rfl
  | dispatch routes rules fallback =>
      have functions :=
        routeCode_eq_emitRoutes (last + 1) (last + 1) lawful.2.2.1
      have choice := routeChoice_eq_choiceCode (last + 1) lawful.2.2.2.leads
      rw [outline, emitAll_singleton, emit]
      simp only [treeCode, functions, choice, ok_bind]
      rfl

theorem stepCode_eq_emitAll
    (last : Nat) {steps : List Node} (lawful : Node.LawfulList steps) :
    stepCode last steps = .ok (emitAll last (outlineSteps steps)) := by
  cases steps with
  | nil => rfl
  | cons node rest =>
      rw [outlineSteps, emitAll_append]
      simp only [stepCode, treeCode_eq_emitAll last lawful.1,
        stepCode_eq_emitAll _ lawful.2, ok_bind]
      rfl

theorem unitCode_eq_emitUnits
    (number last position : Nat) {branches : List Node}
    (lawful : Node.LawfulList branches) :
    unitCode number last position branches =
      .ok (emitUnits number last position (outlineBranches branches)) := by
  cases branches with
  | nil => rfl
  | cons node rest =>
      simp only [unitCode, treeCode_eq_emitAll last lawful.1,
        unitCode_eq_emitUnits number _ (position + 1) lawful.2, ok_bind]
      rfl

theorem routeCode_eq_emitRoutes
    (number last : Nat) {routes : List (String × Node)}
    (lawful : Node.LawfulRoutes routes) :
    routeCode number last routes =
      .ok (emitRoutes number last (outlineRoutes routes)) := by
  cases routes with
  | nil => rfl
  | cons route rest =>
      simp only [routeCode, treeCode_eq_emitAll last lawful.2.1,
        routeCode_eq_emitRoutes number _ lawful.2.2, ok_bind]
      rfl

end

/-- What is written about rules and default is one line each, and they lead
somewhere. -/
structure ProperRouting (rules : List Rule) (fallback : Option String) :
    Prop where
  ofRule : ∀ rule ∈ rules,
      '\n' ∉ rule.condition.toList ∧ isIdentifier rule.target = true
  ofFallback : ∀ target ∈ fallback, isIdentifier target = true
  leads : rules ≠ [] ∨ fallback ≠ none

namespace Step

mutual

/-- What lawfulness of a tree says about its outline. -/
def Proper : Step → Prop
  | .call expression target =>
      (∃ text, expression = .ok text ∧ text.toList.head? = some 't' ∧
        Neat (callText text target).toList) ∧
        ∀ name ∈ target, isIdentifier name = true
  | .branch condition whenTrue none =>
      '\n' ∉ condition.toList ∧ whenTrue ≠ [] ∧ ProperAll whenTrue
  | .branch condition whenTrue (some otherwise) =>
      '\n' ∉ condition.toList ∧ (whenTrue ≠ [] ∧ ProperAll whenTrue) ∧
        otherwise ≠ [] ∧ ProperAll otherwise
  | .fanout branches _ => branches ≠ [] ∧ ProperUnits branches
  | .dispatch routes rules fallback =>
      routes ≠ [] ∧ ProperRoutes routes ∧ ProperRouting rules fallback

def ProperAll : List Step → Prop
  | [] => True
  | step :: rest => Proper step ∧ ProperAll rest

def ProperUnits : List (List Step) → Prop
  | [] => True
  | steps :: rest => (steps ≠ [] ∧ ProperAll steps) ∧ ProperUnits rest

def ProperRoutes : List (String × List Step) → Prop
  | [] => True
  | (name, steps) :: rest =>
      isIdentifier name = true ∧ (steps ≠ [] ∧ ProperAll steps) ∧
      ProperRoutes rest

end

theorem properAll_append {first second : List Step} (left : ProperAll first)
    (right : ProperAll second) : ProperAll (first ++ second) := by
  induction first with
  | nil => exact right
  | cons step rest induction => exact ⟨left.1, induction left.2⟩

end Step

theorem noFeed_conditionExpression {condition : String}
    (accepted : Condition.check condition = .ok ()) :
    '\n' ∉ (conditionExpression condition).toList := by
  intro member
  exact (inline_conditionExpression accepted _ member).1 rfl

theorem proper_call {call : ToolCall} (lawful : call.Lawful) :
    Proper (.call (callExpression call) call.output) := by
  obtain ⟨text, written, starts⟩ := exists_callExpression lawful
  obtain ⟨code, isLine, regular, _⟩ := exists_callLine lawful
  obtain rfl : .line (callText text call.output) = code :=
    Except.ok.inj ((callLine_eq_ok written).symm.trans isLine)
  exact ⟨⟨text, written, starts, StandsAlone.neat regular.1⟩, lawful.output⟩

theorem properRouting_spelled
    {known : List String} {rules : List Rule} {fallback : Option String}
    (routing : LawfulRouting known rules fallback)
    (identifiers : ∀ name ∈ known, isIdentifier name = true) :
    ProperRouting (rules.map spellRule) fallback where
  ofRule spelled member := by
    obtain ⟨rule, isRule, rfl⟩ := List.mem_map.mp member
    obtain ⟨accepted, isKnown⟩ := routing.ofRule rule isRule
    simp only [spellRule]
    exact ⟨noFeed_conditionExpression accepted, identifiers _ isKnown⟩
  ofFallback target isFallback :=
    identifiers target (routing.ofFallback target isFallback)
  leads := by simpa using routing.leads

mutual

theorem proper_outline {node : Node} (lawful : node.Lawful) :
    outline node ≠ [] ∧ ProperAll (outline node) := by
  match node with
  | .call invocation => exact ⟨by simp [outline], proper_call lawful, trivial⟩
  | .sequence steps =>
      obtain ⟨notEmpty, steps⟩ := lawful
      obtain ⟨notNil, proper⟩ := proper_outlineSteps steps
      exact ⟨notNil notEmpty, proper⟩
  | .branch condition whenTrue none =>
      obtain ⟨accepted, whenTrue⟩ := lawful
      have noFeed := noFeed_conditionExpression accepted
      exact ⟨by simp [outline], ⟨noFeed, proper_outline whenTrue⟩, trivial⟩
  | .branch condition whenTrue (some otherwise) =>
      obtain ⟨accepted, whenTrue, otherwise⟩ := lawful
      have noFeed := noFeed_conditionExpression accepted
      exact ⟨by simp [outline],
        ⟨noFeed, proper_outline whenTrue, proper_outline otherwise⟩,
        trivial⟩
  | .fanout branches join =>
      obtain ⟨several, branchesLawful⟩ := lawful
      have notEmpty : outlineBranches branches ≠ [] := by
        rw [← List.length_pos_iff, length_outlineBranches]
        omega
      exact ⟨by simp [outline],
        ⟨notEmpty, proper_outlineBranches branchesLawful⟩, trivial⟩
  | .dispatch routes rules fallback =>
      obtain ⟨notEmpty, _, routesLawful, routing⟩ := lawful
      have identifiers :
          ∀ name ∈ routes.map Prod.fst, isIdentifier name = true := by
        intro name member
        obtain ⟨route, isRoute, rfl⟩ := List.mem_map.mp member
        exact (Node.lawfulRoutes_iff.mp routesLawful route isRoute).1
      have notNil : outlineRoutes routes ≠ [] := by
        obtain ⟨route, rest, rfl⟩ := List.exists_cons_of_ne_nil notEmpty
        simp [outlineRoutes]
      exact ⟨by simp [outline], ⟨notNil, proper_outlineRoutes routesLawful,
        properRouting_spelled routing identifiers⟩, trivial⟩

theorem proper_outlineSteps
    {steps : List Node} (lawful : Node.LawfulList steps) :
    (steps ≠ [] → outlineSteps steps ≠ []) ∧
    ProperAll (outlineSteps steps) := by
  match steps with
  | [] => exact ⟨fun notEmpty => absurd rfl notEmpty, trivial⟩
  | node :: rest =>
      obtain ⟨notNil, proper⟩ := proper_outline lawful.1
      obtain ⟨_, properRest⟩ := proper_outlineSteps lawful.2
      refine ⟨fun _ => ?_, properAll_append proper properRest⟩
      simp [outlineSteps, notNil]

theorem proper_outlineBranches
    {branches : List Node} (lawful : Node.LawfulList branches) :
    ProperUnits (outlineBranches branches) := by
  match branches with
  | [] => trivial
  | node :: rest =>
      exact ⟨proper_outline lawful.1, proper_outlineBranches lawful.2⟩

theorem proper_outlineRoutes
    {routes : List (String × Node)} (lawful : Node.LawfulRoutes routes) :
    ProperRoutes (outlineRoutes routes) := by
  match routes with
  | [] => trivial
  | (name, node) :: rest =>
      obtain ⟨identifier, nodeLawful, restLawful⟩ := lawful
      exact ⟨identifier, proper_outline nodeLawful,
        proper_outlineRoutes restLawful⟩

end

theorem neat_condition
    {front condition : String} (neat : Neat front.toList)
    (noFeed : '\n' ∉ condition.toList) :
    Neat (front ++ condition ++ ":").toList := by
  obtain ⟨c, head, notBlank⟩ := neat.starts
  obtain ⟨rest, shape⟩ : ∃ rest, front.toList = c :: rest :=
    List.head?_eq_some_iff.mp head
  refine ⟨⟨c, by simp [shape], notBlank⟩, ?_, ?_⟩
  · simp [neat.tidy.1, noFeed]
  · simp [List.getLast?_append]

theorem neat_routeLine
    (number : Nat) {target : String}
    (identifier : isIdentifier target = true) :
    (routeLine number target).Neat :=
  StandsAlone.neat (regular_routeLine number identifier).1

theorem neatAll_ruleCode
    (number : Nat) {keyword : String} (neat : Neat (keyword ++ " ").toList)
    {rules : List Rule}
    (proper : ∀ rule ∈ rules,
      '\n' ∉ rule.condition.toList ∧ isIdentifier rule.target = true) :
    Code.NeatAll (ruleCode number keyword rules) := by
  induction rules generalizing keyword with
  | nil => trivial
  | cons rule rest induction =>
      obtain ⟨⟨noFeed, identifier⟩, ofRest⟩ := List.forall_mem_cons.mp proper
      have elif : Neat ("elif" ++ " ").toList :=
        ⟨⟨'e', rfl, by decide⟩, by simp [Code.Tidy]⟩
      exact ⟨⟨neat_condition neat noFeed, by simp,
          neat_routeLine number identifier, trivial⟩, induction elif ofRest⟩

theorem neatAll_choiceCode
    (number : Nat) {rules : List Rule} {fallback : Option String}
    (proper : ProperRouting rules fallback) :
    Code.NeatAll (choiceCode number rules fallback) := by
  have ofFallback : Code.Neat (fallbackLine number fallback) := by
    cases fallback with
    | none => exact StandsAlone.neat regular_pass.1
    | some target => exact neat_routeLine number (proper.ofFallback target rfl)
  cases rules with
  | nil =>
      cases fallback with
      | none => trivial
      | some target => exact ⟨ofFallback, trivial⟩
  | cons rule rest =>
      have first : Neat ("if" ++ " ").toList :=
        ⟨⟨'i', rfl, by decide⟩, by simp [Code.Tidy]⟩
      have last : Code.Neat (.block "else:" [fallbackLine number fallback]) :=
        ⟨standsAlone_else.neat, by simp, ofFallback, trivial⟩
      exact Code.neatAll_append (neatAll_ruleCode number first proper.ofRule)
        ⟨last, trivial⟩

theorem exists_joinCode_eq_line
    (number count : Nat) (bound : NameSet) (join : JoinPolicy) :
    ∃ text, joinCode number count bound join = .line text := by
  cases join with
  | waitForAll => exact ⟨_, rfl⟩
  | firstToFinish =>
      simp only [joinCode]
      split
      · exact ⟨_, rfl⟩
      · exact ⟨_, rfl⟩

theorem neat_joinCode
    (number count : Nat) (bound : NameSet) (join : JoinPolicy) :
    (joinCode number count bound join).Neat := by
  have regular := regular_joinCode number count bound join
  obtain ⟨text, isLine⟩ := exists_joinCode_eq_line number count bound join
  rw [isLine] at regular ⊢
  exact StandsAlone.neat regular.1

mutual

theorem neatAll_emit {step : Step} (proper : step.Proper) (last : Nat) :
    (emit last step).code ≠ [] ∧ Code.NeatAll (emit last step).code := by
  have neatIf : Neat "if ".toList :=
    ⟨⟨'i', rfl, by decide⟩, by simp [Code.Tidy]⟩
  match step with
  | .call expression target =>
      obtain ⟨⟨text, rfl, _, neat⟩, _⟩ := proper
      exact ⟨by simp [emit, callCode], neat, trivial⟩
  | .branch condition whenTrue none =>
      obtain ⟨noFeed, notEmpty, whenTrue⟩ := proper
      obtain ⟨notNil, neat⟩ := neatAll_emitAll whenTrue last
      exact ⟨by simp [emit],
        ⟨neat_condition neatIf noFeed, notNil notEmpty, neat⟩, trivial⟩
  | .branch condition whenTrue (some otherwise) =>
      obtain ⟨noFeed, ⟨notEmpty, whenTrue⟩, notEmptyOther, otherwiseProper⟩ :=
        proper
      obtain ⟨notNil, neat⟩ := neatAll_emitAll whenTrue last
      obtain ⟨notNilOther, neatOther⟩ :=
        neatAll_emitAll otherwiseProper (emitAll last _).last
      exact ⟨by simp [emit],
        ⟨neat_condition neatIf noFeed, notNil notEmpty, neat⟩,
        ⟨standsAlone_else.neat, notNilOther notEmptyOther, neatOther⟩, trivial⟩
  | .fanout branches join =>
      obtain ⟨_, branchesProper⟩ := proper
      have neat := neatAll_emitUnits branchesProper (last + 1) (last + 1) 0
      exact ⟨by simp [emit],
        Code.neatAll_append neat ⟨neat_joinCode _ _ _ _, trivial⟩⟩
  | .dispatch routes rules fallback =>
      obtain ⟨notEmpty, routesProper, routing⟩ := proper
      have neat := neatAll_emitRoutes routesProper (last + 1) (last + 1)
      obtain ⟨route, rest, rfl⟩ := List.exists_cons_of_ne_nil notEmpty
      exact ⟨by simp [emit, emitRoutes],
        Code.neatAll_append neat (neatAll_choiceCode _ routing)⟩

theorem neatAll_emitAll
    {steps : List Step} (proper : ProperAll steps) (last : Nat) :
    (steps ≠ [] → (emitAll last steps).code ≠ []) ∧
    Code.NeatAll (emitAll last steps).code := by
  match steps with
  | [] => exact ⟨fun notEmpty => absurd rfl notEmpty, trivial⟩
  | step :: rest =>
      obtain ⟨notNil, neat⟩ := neatAll_emit proper.1 last
      obtain ⟨_, neatRest⟩ := neatAll_emitAll proper.2 (emit last step).last
      exact ⟨fun _ => by
        simp [emitAll, notNil], Code.neatAll_append neat neatRest⟩

theorem neatAll_emitUnits
    {branches : List (List Step)} (proper : ProperUnits branches)
    (number last position : Nat) :
    Code.NeatAll (emitUnits number last position branches).code := by
  match branches with
  | [] => trivial
  | steps :: rest =>
      obtain ⟨⟨notEmpty, stepsProper⟩, restProper⟩ := proper
      obtain ⟨notNil, neat⟩ := neatAll_emitAll stepsProper last
      have header :=
        (standsAlone_function (isPlain_unitName number position)).neat
      exact ⟨⟨header, notNil notEmpty, neat⟩,
        neatAll_emitUnits restProper _ _ _⟩

theorem neatAll_emitRoutes
    {routes : List (String × List Step)} (proper : ProperRoutes routes)
    (number last : Nat) :
    Code.NeatAll (emitRoutes number last routes).code := by
  match routes with
  | [] => trivial
  | (name, steps) :: rest =>
      obtain ⟨identifier, ⟨notEmpty, stepsProper⟩, restProper⟩ := proper
      obtain ⟨notNil, neat⟩ := neatAll_emitAll stepsProper last
      have header :=
        (standsAlone_function (lead_routeName number identifier).plain).neat
      exact ⟨⟨header, notNil notEmpty, neat⟩,
        neatAll_emitRoutes restProper _ _⟩

end

end Workflow.Program
