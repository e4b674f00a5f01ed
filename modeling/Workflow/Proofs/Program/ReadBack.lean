import Workflow.Proofs.Program.Outline

/-!
# Outlines are read back from code

The first line of a step tells its kind, the first line that cannot belong to
it tells its end, and the numbers in the names of functions are those of the
place. So the code of an outline determines the outline.
-/

namespace Workflow.Program

open Step

theorem ne_of_head_ne {left right : String}
    (different : left.toList.head? ≠ right.toList.head?) : left ≠ right := by
  rintro rfl
  exact different rfl

theorem eq_of_between_eq
    {front back left right : String}
    (same : front ++ left ++ back = front ++ right ++ back) :
    left = right := by
  rw [← String.toList_inj] at same ⊢
  simpa using same

theorem routeName_injective
    {number : Nat} {left right : String}
    (same : routeName number left = routeName number right) :
    left = right := by
  rw [← String.toList_inj] at same ⊢
  simpa [routeName] using same

theorem routeLine_injective
    {number : Nat} {left right : String}
    (same : routeLine number left = routeLine number right) :
    left = right := by
  have names : "" ++ routeName number left ++ "(ctx)" =
      "" ++ routeName number right ++ "(ctx)" := by
    simpa [routeLine] using same
  exact routeName_injective (eq_of_between_eq names)

theorem fallbackLine_injective
    {number : Nat} {left right : Option String}
    (same : fallbackLine number left = fallbackLine number right) :
    left = right := by
  have noPass : ∀ target, routeLine number target ≠ .line "pass" := by
    intro target isPass
    have different : routeName number target ++ "(ctx)" ≠ "pass" :=
      ne_of_head_ne (by simp [routeName])
    exact different (Code.line.inj isPass)
  cases left with
  | none =>
      cases right with
      | none => rfl
      | some other => exact absurd same.symm (noPass other)
  | some target =>
      cases right with
      | none => exact absurd same (noPass target)
      | some other => rw [routeLine_injective same]

/-- Texts up to the first occurrence of a character. -/
theorem eq_of_append_cons_eq
    {c : Char} {left right more other : List Char} (notLeft : c ∉ left)
    (notRight : c ∉ right) (same : left ++ c :: more = right ++ c :: other) :
    left = right ∧ more = other := by
  induction left generalizing right with
  | nil =>
      cases right with
      | nil => exact ⟨rfl, List.tail_eq_of_cons_eq same⟩
      | cons d right => exact absurd (List.head_eq_of_cons_eq same) (by grind)
  | cons d left induction =>
      cases right with
      | nil => exact absurd (List.head_eq_of_cons_eq same) (by grind)
      | cons e right =>
          obtain ⟨rfl, later⟩ := List.cons.inj same
          obtain ⟨rfl, behind⟩ := induction (by grind) (by grind) later
          exact ⟨rfl, behind⟩

theorem notMem_quote_of_isIdentifier
    {name : String} (identifier : isIdentifier name = true) :
    '"' ∉ name.toList := by
  intro member
  exact absurd (isFieldChar_of_isIdentifier identifier member) (by decide)

/-- A binding line tells the name it binds and the call. -/
theorem binding_injective
    {text other target second : String}
    (identifier : isIdentifier target = true)
    (secondIdentifier : isIdentifier second = true)
    (same : callText text (some target) = callText other (some second)) :
    text = other ∧ target = second := by
  have chars := congrArg String.toList same
  have ofFirst :=
    Text.quoted_toList_of_isFieldChar fun _ =>
      isFieldChar_of_isIdentifier identifier
  have ofSecond :=
    Text.quoted_toList_of_isFieldChar fun _ =>
      isFieldChar_of_isIdentifier secondIdentifier
  simp only [callText, String.toList_append, ofFirst, ofSecond,
    List.append_assoc, List.append_cancel_left_eq, List.cons_append,
    List.nil_append, List.cons.injEq, true_and] at chars
  obtain ⟨names, texts⟩ :=
    eq_of_append_cons_eq (notMem_quote_of_isIdentifier identifier)
      (notMem_quote_of_isIdentifier secondIdentifier) chars
  rw [← String.toList_inj, ← String.toList_inj]
  exact ⟨by simpa using texts, names⟩

theorem callText_injective
    {text other : String} {target second : Option String}
    (starts : text.toList.head? = some 't')
    (otherStarts : other.toList.head? = some 't')
    (identifiers : ∀ name ∈ target, isIdentifier name = true)
    (secondIdentifiers : ∀ name ∈ second, isIdentifier name = true)
    (same : callText text target = callText other second) :
    text = other ∧ target = second := by
  have heads := congrArg (·.toList.head?) same
  cases target with
  | none =>
      cases second with
      | none => exact ⟨same, rfl⟩
      | some name => simp [callText, starts] at heads
  | some name =>
      cases second with
      | none => simp [callText, otherStarts] at heads
      | some other =>
          obtain ⟨texts, names⟩ :=
            binding_injective (identifiers _ rfl) (secondIdentifiers _ rfl)
              same
          exact ⟨texts, congrArg some names⟩

theorem joinCode_injective
    {number count : Nat} {bound : NameSet} {left right : JoinPolicy}
    (same : joinCode number count bound left =
      joinCode number count bound right) :
    left = right := by
  have differ : joinCode number count bound .waitForAll ≠
      joinCode number count bound .firstToFinish := by
    intro isSame
    simp only [joinCode] at isSame
    split at isSame
    · have chars := congrArg String.toList (Code.line.inj isSame)
      simp at chars
    · have chars := congrArg String.toList (Code.line.inj isSame)
      simp at chars
  cases left with
  | waitForAll =>
      cases right with
      | waitForAll => rfl
      | firstToFinish => exact absurd same differ
  | firstToFinish =>
      cases right with
      | waitForAll => exact absurd same.symm differ
      | firstToFinish => rfl

/-- Whether code opens a function. -/
def isFunction : Code → Bool
  | .block header _ => header.toList.head? == some 'd'
  | _ => false

/-- Whether code goes on with the other half of a branch. -/
def isElse : Code → Bool
  | .block header _ => header == "else:"
  | _ => false

/-- The kinds of steps that code may start with. -/
inductive Kind where
  | call
  | branch
  | fanout
  | dispatch
  deriving DecidableEq

namespace Step

def kind : Step → Kind
  | .call _ _ => .call
  | .branch _ _ _ => .branch
  | .fanout _ _ => .fanout
  | .dispatch _ _ _ => .dispatch

end Step

/-- The kind of step whose code starts with some code. -/
def Code.kind : Code → Kind
  | .block header _ =>
      match header.toList with
      | 'd' :: 'e' :: 'f' :: ' ' :: '_' :: 'f' :: _ => .fanout
      | 'd' :: _ => .dispatch
      | _ => .branch
  | _ => .call

theorem exists_emit_eq_cons {step : Step} (proper : step.Proper) (last : Nat) :
    ∃ first rest,
      (emit last step).code = first :: rest ∧ first.kind = step.kind ∧
      isElse first = false := by
  cases step with
  | call expression target =>
      obtain ⟨⟨text, rfl, _⟩, _⟩ := proper
      exact ⟨_, _, rfl, rfl, rfl⟩
  | branch condition whenTrue otherwise =>
      have notElse : ("if " ++ condition ++ ":" == "else:") = false :=
        beq_eq_false_iff_ne.mpr (ne_of_head_ne (by simp))
      have isBranch (body : List Code) :
          Code.kind (.block ("if " ++ condition ++ ":") body) = .branch := by
        simp [Code.kind]
      cases otherwise with
      | none => exact ⟨_, _, rfl, isBranch _, notElse⟩
      | some otherwise => exact ⟨_, _, rfl, isBranch _, notElse⟩
  | fanout branches join =>
      obtain ⟨steps, rest, rfl⟩ := List.exists_cons_of_ne_nil proper.1
      refine ⟨_, _, rfl, ?_, ?_⟩
      · simp [Code.kind, unitName, Step.kind]
      · exact beq_eq_false_iff_ne.mpr (ne_of_head_ne (by simp))
  | dispatch routes rules fallback =>
      obtain ⟨⟨name, steps⟩, rest, rfl⟩ := List.exists_cons_of_ne_nil proper.1
      refine ⟨_, _, rfl, ?_, ?_⟩
      · simp [Code.kind, routeName, Step.kind]
      · exact beq_eq_false_iff_ne.mpr (ne_of_head_ne (by simp))

/-- The next code does not go on with a branch. -/
def StepEnds (rest : List Code) : Prop :=
  ∀ code ∈ rest.head?, isElse code = false

/-- The next code is not one more function. -/
def FunctionsEnd (rest : List Code) : Prop :=
  ∀ code ∈ rest.head?, isFunction code = false

theorem stepEnds_emitAll
    {steps : List Step} (proper : ProperAll steps) (last : Nat) :
    StepEnds (emitAll last steps).code := by
  intro code head
  cases steps with
  | nil => cases head
  | cons step rest =>
      obtain ⟨first, later, shape, _, notElse⟩ :=
        exists_emit_eq_cons proper.1 last
      simp only [emitAll, shape, List.cons_append, List.head?_cons,
        Option.mem_def, Option.some.injEq] at head
      rwa [← head]

theorem functionsEnd_choiceCode
    (number : Nat) {rules : List Rule} {fallback : Option String}
    (leads : rules ≠ [] ∨ fallback ≠ none) (rest : List Code) :
    FunctionsEnd (choiceCode number rules fallback ++ rest) := by
  cases rules with
  | nil =>
      cases fallback with
      | none => simp at leads
      | some target => simp [FunctionsEnd, choiceCode, routeLine, isFunction]
  | cons rule rules => simp [FunctionsEnd, choiceCode, ruleCode, isFunction]

theorem not_stepEnds_else (body rest : List Code) :
    ¬ StepEnds (.block "else:" body :: rest) := by
  simp [StepEnds, isElse]

theorem not_functionsEnd (name : String) (body rest : List Code) :
    ¬ FunctionsEnd (.block ("def " ++ name ++ "(ctx):") body :: rest) := by
  simp [FunctionsEnd, isFunction]

theorem ruleCode_injective
    {number : Nat} {keyword : String} {left right : List Rule}
    {last other : List Code} {restLeft restRight : List Code}
    (notElse : ∀ condition, keyword ++ " " ++ condition ++ ":" ≠ "else:")
    (same : ruleCode number keyword left ++ .block "else:" last :: restLeft =
      ruleCode number keyword right ++ .block "else:" other :: restRight) :
    left = right ∧ last = other ∧ restLeft = restRight := by
  induction left generalizing keyword right with
  | nil =>
      cases right with
      | nil =>
          obtain ⟨blocks, rests⟩ := List.cons.inj same
          exact ⟨rfl, (Code.block.inj blocks).2, rests⟩
      | cons rule rest =>
          have headers := (Code.block.inj (List.head_eq_of_cons_eq same)).1
          exact absurd headers.symm (notElse rule.condition)
  | cons rule rest induction =>
      cases right with
      | nil =>
          have headers := (Code.block.inj (List.head_eq_of_cons_eq same)).1
          exact absurd headers (notElse rule.condition)
      | cons second others =>
          obtain ⟨blocks, later⟩ := List.cons.inj same
          obtain ⟨headers, lines⟩ := Code.block.inj blocks
          have conditions : rule.condition = second.condition :=
            eq_of_between_eq headers
          have targets : rule.target = second.target :=
            routeLine_injective (List.head_eq_of_cons_eq lines)
          have notElif (condition : String) :
              "elif" ++ " " ++ condition ++ ":" ≠ "else:" := by
            intro isElse
            have chars := congrArg String.toList isElse
            simp at chars
          obtain ⟨rfl, sameLast, sameRest⟩ := induction notElif later
          have rules : rule = second := by
            cases rule
            cases second
            exact congr (congrArg Rule.mk conditions) targets
          exact ⟨by rw [rules], sameLast, sameRest⟩

theorem choiceCode_injective
    {number : Nat} {left right : List Rule} {fallback second : Option String}
    {restLeft restRight : List Code} (leads : left ≠ [] ∨ fallback ≠ none)
    (secondLeads : right ≠ [] ∨ second ≠ none)
    (same : choiceCode number left fallback ++ restLeft =
      choiceCode number right second ++ restRight) :
    left = right ∧ fallback = second ∧ restLeft = restRight := by
  have notIf (condition : String) :
      "if" ++ " " ++ condition ++ ":" ≠ "else:" :=
    ne_of_head_ne (by simp)
  match left, right, fallback, second with
  | [], [], some target, some other =>
      obtain ⟨lines, rests⟩ := List.cons.inj same
      exact ⟨rfl, congrArg some (routeLine_injective lines), rests⟩
  | [], [], none, _ => simp at leads
  | [], [], _, none => simp at secondLeads
  | [], _ :: _, none, _ => simp at leads
  | _ :: _, [], _, none => simp at secondLeads
  | [], _ :: _, some _, _ => cases List.head_eq_of_cons_eq same
  | _ :: _, [], _, some _ => cases List.head_eq_of_cons_eq same
  | rule :: rest, other :: others, fallback, second =>
      simp only [choiceCode, List.append_assoc, List.singleton_append] at same
      obtain ⟨rules, lines, rests⟩ := ruleCode_injective notIf same
      exact ⟨rules, fallbackLine_injective (List.head_eq_of_cons_eq lines),
        rests⟩

theorem kind_eq_of_emit_eq
    {left right : Step} (properLeft : left.Proper) (properRight : right.Proper)
    {last : Nat} {restLeft restRight : List Code}
    (same : (emit last left).code ++ restLeft =
      (emit last right).code ++ restRight) :
    left.kind = right.kind := by
  obtain ⟨first, later, shape, ofLeft, _⟩ :=
    exists_emit_eq_cons properLeft last
  obtain ⟨other, others, otherShape, ofRight, _⟩ :=
    exists_emit_eq_cons properRight last
  rw [shape, otherShape] at same
  rw [← ofLeft, ← ofRight, List.head_eq_of_cons_eq same]

mutual

/-- Steps are read back from their code. -/
theorem emitAll_injective
    {left right : List Step} (properLeft : ProperAll left)
    (properRight : ProperAll right) {last : Nat}
    (same : (emitAll last left).code = (emitAll last right).code) :
    left = right := by
  match left, right with
  | [], [] => rfl
  | [], step :: rest =>
      have notNil :=
        (neatAll_emitAll properRight last).1 (List.cons_ne_nil step rest)
      exact absurd same.symm notNil
  | step :: rest, [] =>
      have notNil :=
        (neatAll_emitAll properLeft last).1 (List.cons_ne_nil step rest)
      exact absurd same notNil
  | step :: rest, other :: others =>
      obtain ⟨rfl, later⟩ := emit_injective properLeft.1 properRight.1
        (stepEnds_emitAll properLeft.2 _) (stepEnds_emitAll properRight.2 _)
          same
      rw [emitAll_injective properLeft.2 properRight.2 later]

/-- A step is read back from code in which something follows that cannot belong
to it. -/
theorem emit_injective
    {left right : Step} (properLeft : left.Proper) (properRight : right.Proper)
    {last : Nat} {restLeft restRight : List Code}
    (endsLeft : StepEnds restLeft) (endsRight : StepEnds restRight)
    (same : (emit last left).code ++ restLeft =
      (emit last right).code ++ restRight) :
    left = right ∧ restLeft = restRight := by
  have kinds := kind_eq_of_emit_eq properLeft properRight same
  match left, right with
  | .call expression target, .call other second =>
      obtain ⟨⟨text, rfl, starts, _⟩, identifiers⟩ := properLeft
      obtain ⟨⟨otherText, rfl, otherStarts, _⟩, secondIdentifiers⟩ :=
        properRight
      obtain ⟨lines, rests⟩ := List.cons.inj same
      obtain ⟨rfl, rfl⟩ :=
        callText_injective starts otherStarts identifiers secondIdentifiers
          (Code.line.inj lines)
      exact ⟨rfl, rests⟩
  | .branch condition whenTrue none, .branch second otherTrue none =>
      obtain ⟨blocks, rests⟩ := List.cons.inj same
      obtain ⟨headers, bodies⟩ := Code.block.inj blocks
      obtain rfl : condition = second := eq_of_between_eq headers
      obtain rfl := emitAll_injective properLeft.2.2 properRight.2.2 bodies
      exact ⟨rfl, rests⟩
  | .branch condition whenTrue (some otherwise),
    .branch second otherTrue (some otherFalse) =>
      obtain ⟨_, ⟨_, whenTrueProper⟩, _, otherwiseProper⟩ := properLeft
      obtain ⟨_, ⟨_, otherTrueProper⟩, _, otherFalseProper⟩ := properRight
      obtain ⟨blocks, later⟩ := List.cons.inj same
      obtain ⟨headers, bodies⟩ := Code.block.inj blocks
      obtain ⟨elses, rests⟩ := List.cons.inj later
      obtain rfl : condition = second := eq_of_between_eq headers
      obtain rfl := emitAll_injective whenTrueProper otherTrueProper bodies
      obtain rfl :=
        emitAll_injective otherwiseProper otherFalseProper
          (Code.block.inj elses).2
      exact ⟨rfl, rests⟩
  | .branch _ _ none, .branch _ _ (some _) =>
      -- what follows the shorter branch would be the other half of the longer
      -- one
      have rests : restLeft = _ := (List.cons.inj same).2
      exact absurd (rests ▸ endsLeft) (not_stepEnds_else _ _)
  | .branch _ _ (some _), .branch _ _ none =>
      have rests : _ = restRight := (List.cons.inj same).2
      exact absurd (rests ▸ endsRight) (not_stepEnds_else _ _)
  | .fanout branches join, .fanout others policy =>
      obtain ⟨text, isLine⟩ :=
        exists_joinCode_eq_line (last + 1) branches.length
          (NameSet.ofList (targetsUnits branches)) join
      obtain ⟨otherText, isOtherLine⟩ :=
        exists_joinCode_eq_line (last + 1) others.length
          (NameSet.ofList (targetsUnits others)) policy
      simp only [emit, List.append_assoc, List.singleton_append] at same
      obtain ⟨rfl, later⟩ := emitUnits_injective properLeft.2 properRight.2
        (by simp [FunctionsEnd, isLine, isFunction])
        (by simp [FunctionsEnd, isOtherLine, isFunction]) same
      obtain ⟨joins, rests⟩ := List.cons.inj later
      exact ⟨by rw [joinCode_injective joins], rests⟩
  | .dispatch routes rules fallback, .dispatch others otherRules second =>
      obtain ⟨_, routesProper, routing⟩ := properLeft
      obtain ⟨_, othersProper, otherRouting⟩ := properRight
      simp only [emit, List.append_assoc] at same
      obtain ⟨rfl, later⟩ := emitRoutes_injective routesProper othersProper
        (functionsEnd_choiceCode _ routing.leads _)
        (functionsEnd_choiceCode _ otherRouting.leads _)
        same
      obtain ⟨rfl, rfl, rests⟩ :=
        choiceCode_injective routing.leads otherRouting.leads later
      exact ⟨rfl, rests⟩
  | .call _ _, .branch _ _ _ => cases kinds
  | .call _ _, .fanout _ _ => cases kinds
  | .call _ _, .dispatch _ _ _ => cases kinds
  | .branch _ _ _, .call _ _ => cases kinds
  | .branch _ _ _, .fanout _ _ => cases kinds
  | .branch _ _ _, .dispatch _ _ _ => cases kinds
  | .fanout _ _, .call _ _ => cases kinds
  | .fanout _ _, .branch _ _ _ => cases kinds
  | .fanout _ _, .dispatch _ _ _ => cases kinds
  | .dispatch _ _ _, .call _ _ => cases kinds
  | .dispatch _ _ _, .branch _ _ _ => cases kinds
  | .dispatch _ _ _, .fanout _ _ => cases kinds

theorem emitUnits_injective
    {left right : List (List Step)} (properLeft : ProperUnits left)
    (properRight : ProperUnits right) {number last position : Nat}
    {restLeft restRight : List Code} (endsLeft : FunctionsEnd restLeft)
    (endsRight : FunctionsEnd restRight)
    (same : (emitUnits number last position left).code ++ restLeft =
      (emitUnits number last position right).code ++ restRight) :
    left = right ∧ restLeft = restRight := by
  match left, right with
  | [], [] => exact ⟨rfl, same⟩
  | [], steps :: rest =>
      have isMore : restLeft = _ := same
      exact absurd (isMore ▸ endsLeft) (not_functionsEnd _ _ _)
  | steps :: rest, [] =>
      have isMore : _ = restRight := same
      exact absurd (isMore ▸ endsRight) (not_functionsEnd _ _ _)
  | steps :: rest, other :: others =>
      obtain ⟨blocks, later⟩ := List.cons.inj same
      obtain rfl :=
        emitAll_injective properLeft.1.2 properRight.1.2
          (Code.block.inj blocks).2
      obtain ⟨rfl, rests⟩ :=
        emitUnits_injective properLeft.2 properRight.2 endsLeft endsRight later
      exact ⟨rfl, rests⟩

theorem emitRoutes_injective
    {left right : List (String × List Step)} (properLeft : ProperRoutes left)
    (properRight : ProperRoutes right) {number last : Nat}
    {restLeft restRight : List Code} (endsLeft : FunctionsEnd restLeft)
    (endsRight : FunctionsEnd restRight)
    (same : (emitRoutes number last left).code ++ restLeft =
      (emitRoutes number last right).code ++ restRight) :
    left = right ∧ restLeft = restRight := by
  match left, right with
  | [], [] => exact ⟨rfl, same⟩
  | [], (name, steps) :: rest =>
      have isMore : restLeft = _ := same
      exact absurd (isMore ▸ endsLeft) (not_functionsEnd _ _ _)
  | (name, steps) :: rest, [] =>
      have isMore : _ = restRight := same
      exact absurd (isMore ▸ endsRight) (not_functionsEnd _ _ _)
  | (name, steps) :: rest, (second, other) :: others =>
      obtain ⟨_, ⟨_, stepsProper⟩, restProper⟩ := properLeft
      obtain ⟨_, ⟨_, otherProper⟩, othersProper⟩ := properRight
      obtain ⟨blocks, later⟩ := List.cons.inj same
      obtain ⟨headers, bodies⟩ := Code.block.inj blocks
      obtain rfl : name = second :=
        routeName_injective (eq_of_between_eq headers)
      obtain rfl := emitAll_injective stepsProper otherProper bodies
      obtain ⟨rfl, rests⟩ :=
        emitRoutes_injective restProper othersProper endsLeft endsRight later
      exact ⟨rfl, rests⟩

end

end Workflow.Program
