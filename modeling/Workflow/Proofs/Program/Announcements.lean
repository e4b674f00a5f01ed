import Workflow.Proofs.Program.CallMeaning
import Workflow.Proofs.Program.LocalFunctions
import Workflow.Proofs.Program.TreeReading

/-!
# Names that a race announces

A race is told which names a branch that lost would have bound.  The lines of
the function of the tree are read one by one, without the tree: besides calls
and conditions there are races, each with the names it is told.  What is found
is what the nodes of the tree stand for, in the order in which they are
written, so the race behind a warning is found in front of the lookup that is
warned of, and it is told the name.
-/

namespace Workflow

namespace Program

open SelfCheck Code

/-- A line that is a call or asks a condition, or one that runs a race, with
the names it is told if it is told any. -/
inductive Landmark where
  | fragment (fragment : Fragment)
  | race (names : Option (List String))

namespace Landmark

/-- Texts with commas between them, in brackets of which the first one has been
read, and the bracket of the call around them. -/
def texts? : List Lexeme → Option (List String)
  | [.text value, .mark ']', .mark ')'] => some [value]
  | .text value :: .mark ',' :: rest => (texts? rest).map (value :: ·)
  | _ => none

/-- The names that a race is told, from the list of its functions on. -/
def announced? : List Lexeme → Option (Option (List String))
  | .mark '[' :: rest =>
      match rest.dropWhile (· != .mark ']') with
      | [.mark ']', .mark ')'] => some none
      | .mark ']' :: .mark ',' :: .mark '[' :: names => (texts? names).map some
      | _ => none
  | _ => none

/-- The names that a line tells a race. -/
def race? (line : List Char) : Option (Option (List String)) :=
  (behind? "_run_first(ctx, " line).bind fun rest =>
    (Lexeme.lexFrom? [] rest).bind announced?

/-- What a line holds, the blanks in front of it aside. -/
def ofLine? (line : List Char) : Option Landmark :=
  match race? (line.dropWhile (· == ' ')) with
  | some names => some (.race names)
  | none => (Fragment.ofLine? line).map .fragment

def inLine (line : List Char) : List Landmark :=
  (ofLine? line).toList

theorem ofLine?_margin (level : Nat) (line : List Char) :
    ofLine? (margin level ++ line) = ofLine? line := by
  have blanks : ∀ c ∈ margin level, (c == ' ') = true := by
    intro c member
    rw [List.eq_of_mem_replicate member]
    rfl
  rw [ofLine?, List.dropWhile_append_of_pos blanks, Fragment.ofLine?_margin]
  rfl

theorem inLine_margin (level : Nat) (line : List Char) :
    inLine (margin level ++ line) = inLine line := by
  rw [inLine, ofLine?_margin, inLine]

/-- Only a line that starts with an underscore can be a race. -/
theorem inLine_eq_map
    {line : List Char} {c : Char} (first : line.head? = some c)
    (solid : c ≠ ' ') (other : c ≠ '_') :
    inLine line = (Fragment.ofLine? line).toList.map .fragment := by
  obtain ⟨rest, rfl⟩ := List.head?_eq_some_iff.mp first
  have noRace : race? (c :: rest) = none := by
    rw [race?, behind?_eq_none (c := '_') (by simp) (by simpa using other)]
    rfl
  rw [inLine, ofLine?, List.dropWhile_cons_of_neg (by simpa using solid),
    noRace]
  cases Fragment.ofLine? (c :: rest) <;> rfl

/-- A line that starts with an underscore is a race or nothing. -/
theorem inLine_underscore (rest : List Char) :
    inLine ('_' :: rest) = (race? ('_' :: rest)).toList.map .race := by
  have noFragment : Fragment.ofLine? ('_' :: rest) = none :=
    Fragment.ofLine?_eq_none (c := '_') rfl (by simp)
  rw [inLine, ofLine?, List.dropWhile_cons_of_neg (by simp), noFragment]
  cases race? ('_' :: rest) <;> rfl

theorem race?_eq_none
    {line : List Char} (other : line.take 6 ≠ "_run_f".toList) :
    race? line = none := by
  have noStart : ¬ "_run_first(ctx, ".toList.isPrefixOf line = true := by
    intro starts
    obtain ⟨rest, rfl⟩ := List.isPrefixOf_iff_prefix.mp starts
    apply other
    simp
  rw [race?, behind?, if_neg noStart]
  rfl

theorem mem_separated {parts : List (List Lexeme)} {lexeme : Lexeme}
    (member : lexeme ∈ Lexeme.separated parts) :
    lexeme = .mark ',' ∨ ∃ part ∈ parts, lexeme ∈ part := by
  induction parts with
  | nil => cases member
  | cons part rest induction =>
      cases rest with
      | nil => exact .inr ⟨part, List.mem_cons_self, member⟩
      | cons next others =>
          rw [Lexeme.separated_cons_cons] at member
          rcases List.mem_append.mp member with here | later
          · exact .inr ⟨part, List.mem_cons_self, here⟩
          · rcases List.mem_cons.mp later with comma | inRest
            · exact .inl comma
            · refine (induction inRest).imp_right ?_
              rintro ⟨other, isPart, inside⟩
              exact ⟨other, List.mem_cons_of_mem _ isPart, inside⟩

/-- Behind a list of names comes what stands behind its bracket. -/
theorem dropWhile_units (units : List String) (tail : List Lexeme) :
    (Lexeme.separated (units.map fun unit => [.name unit]) ++ .mark ']' ::
      tail).dropWhile
      (· != .mark ']') = .mark ']' :: tail := by
  have inside : ∀ lexeme ∈ Lexeme.separated
      (units.map fun unit => [.name unit]), (lexeme != .mark ']') = true := by
    intro lexeme member
    rcases mem_separated member with rfl | ⟨part, isPart, inPart⟩
    · rfl
    · obtain ⟨unit, _, rfl⟩ := List.mem_map.mp isPart
      obtain rfl := List.mem_singleton.mp inPart
      rfl
  rw [List.dropWhile_append_of_pos inside,
    List.dropWhile_cons_of_neg (by simp)]

theorem texts?_separated {names : List String} (notEmpty : names ≠ []) :
    texts? (Lexeme.separated (names.map fun name => [.text name]) ++
        [.mark ']', .mark ')']) =
      some names := by
  induction names with
  | nil => exact absurd rfl notEmpty
  | cons name rest induction =>
      cases rest with
      | nil => rfl
      | cons next others =>
          have later := induction (List.cons_ne_nil next others)
          rw [List.map_cons] at later
          rw [List.map_cons, List.map_cons, Lexeme.separated_cons_cons]
          simp only [List.cons_append, List.nil_append, texts?, later,
            Option.map_some]

theorem isName_unitName (number position : Nat) :
    Lexeme.isName (unitName number position) = true := by
  have parts := IsName.unit number position
  have shape : (unitName number position).toList = '_' :: ("fanout".toList ++
      (toString number).toList ++ "_unit".toList ++
        (toString position).toList) := by
    simp [unitName]
  rw [Lexeme.isName, shape]
  rw [IsName, shape] at parts
  refine Bool.and_eq_true_iff.mpr ⟨rfl, List.all_eq_true.mpr ?_⟩
  intro c member
  exact isNamePart_of_isFieldChar (parts c (List.mem_cons_of_mem _ member))

theorem lexes_list
    {texts : List String} {parts : List (List Lexeme)}
    (each : List.Forall₂ (fun text part => Lexeme.Lexes text.toList part) texts
      parts) :
    Lexeme.Lexes (listExpression texts).toList
      (.mark '[' :: (Lexeme.separated parts ++ [.mark ']'])) := by
  have shape : (listExpression texts).toList =
      '[' :: ((Text.commaSeparated texts).toList ++ [']']) := by
    simp [listExpression]
  rw [shape]
  exact (Lexeme.lexes_commaSeparated each).enclosed rfl rfl

section Race

variable {units : List String}
  (named : ∀ unit ∈ units, Lexeme.isName unit = true)

include named

theorem lexes_units :
    Lexeme.Lexes (listExpression units).toList
      (.mark '[' ::
        (Lexeme.separated (units.map fun unit => [.name unit]) ++
          [.mark ']'])) := by
  apply lexes_list
  rw [List.forall₂_map_right_iff, List.forall₂_same]
  exact fun unit member => Lexeme.lexes_name (named unit member)

/-- A race that is told nothing. -/
theorem race?_units :
    race? ("_run_first(ctx, " ++ listExpression units ++ ")").toList =
      some none := by
  have shape : ("_run_first(ctx, " ++ listExpression units ++ ")").toList =
      "_run_first(ctx, ".toList ++
        ((listExpression units).toList ++ [')']) := by simp
  have lexes :=
    (lexes_units named).append (Lexeme.lexes_nil.mark_cons (c := ')') rfl)
      (Lexeme.apart_cons rfl []) (by simp)
  have read := lexes [] Lexeme.apart_nil
  rw [List.append_nil, Lexeme.lexFrom?, List.append_nil,
    List.reverse_reverse] at read
  rw [race?, shape, behind?_append, Option.bind_some, read, Option.bind_some]
  simp only [List.cons_append, List.append_assoc, List.nil_append, announced?,
    dropWhile_units]

/-- A race that is told some names. -/
theorem race?_names {names : List String} (notEmpty : names ≠ []) :
    race? ("_run_first(ctx, " ++ listExpression units ++ ", " ++
      listExpression (names.map Text.quoted) ++ ")").toList =
        some (some names) := by
  have shape : ("_run_first(ctx, " ++ listExpression units ++ ", " ++
      listExpression (names.map Text.quoted) ++ ")").toList =
      "_run_first(ctx, ".toList ++ ((listExpression units).toList ++
        ',' :: ' ' ::
          ((listExpression (names.map Text.quoted)).toList ++ [')'])) := by
          simp
  have texts : Lexeme.Lexes (listExpression (names.map Text.quoted)).toList
      (.mark '[' ::
        (Lexeme.separated (names.map fun name => [.text name]) ++
          [.mark ']'])) := by
    apply lexes_list
    rw [List.forall₂_map_right_iff, List.forall₂_map_left_iff,
      List.forall₂_same]
    exact fun name _ => Lexeme.lexes_quoted name
  have told := (texts.append (Lexeme.lexes_nil.mark_cons (c := ')') rfl)
    (Lexeme.apart_cons rfl []) (by simp)).blank_cons.mark_cons (c := ',') rfl
  have lexes :=
    (lexes_units named).append told (Lexeme.apart_cons rfl _) (by simp)
  have read := lexes [] Lexeme.apart_nil
  rw [List.append_nil, Lexeme.lexFrom?, List.append_nil,
    List.reverse_reverse] at read
  rw [race?, shape, behind?_append, Option.bind_some, read, Option.bind_some]
  simp only [List.cons_append, List.append_assoc, List.nil_append, announced?,
    dropWhile_units, texts?_separated notEmpty, Option.map_some]

end Race

end Landmark

end Program

open Program Code

/-- The names that a race is told: those that some call in its branches binds,
each once and in increasing order.  Where there are none, it is told
nothing. -/
def lostNames (branches : List Node) : Option (List String) :=
  let names := (targetsOf (Node.callsList branches)).names
  if names.isEmpty then none else some names

/-- What is written for a node itself, and not for its children. -/
def Site.landmarks (site : Site) : List Landmark :=
  match site.node with
  | .fanout branches .firstToFinish => [.race (lostNames branches)]
  | _ => site.fragments.map .fragment

namespace Program

theorem landmarks_callLine
    {call : ToolCall} {code : Code} (written : callLine call = .ok code)
    (path : Path) (before : List Node) :
    gather Landmark.inLine code =
      Site.landmarks ⟨path, before, .call call⟩ := by
  have same := fragments_callLine written path before
  have line : ∃ text c,
      code = .line text ∧ text.toList.head? = some c ∧ c ≠ ' ' ∧ c ≠ '_' := by
    unfold callLine at written
    split at written
    · cases written
    · rename_i expression isExpression
      obtain ⟨expressions, _, shape⟩ := bind_eq_ok_iff.mp isExpression
      obtain rfl := Except.ok.inj shape
      split at written
      · obtain rfl := Except.ok.inj written
        exact ⟨_, 'c', rfl, by simp, by simp, by simp⟩
      · obtain rfl := Except.ok.inj written
        exact ⟨_, 't', rfl, by simp, by simp, by simp⟩
  obtain ⟨text, c, rfl, first, solid, other⟩ := line
  rw [gather, Landmark.inLine_eq_map first solid other]
  rw [fragments] at same
  rw [same]
  rfl

theorem landmarks_routeLine (number : Nat) (target : String) :
    gather Landmark.inLine (routeLine number target) = [] := by
  obtain ⟨rest, shape⟩ : ∃ rest, (routeName number target ++ "(ctx)").toList =
      '_' :: ("route".toList ++ rest) := by
    simp [routeName]
  rw [routeLine, gather, shape, Landmark.inLine_underscore,
    Landmark.race?_eq_none (by simp)]
  rfl

theorem landmarks_joinLine
    (number : Nat) (branches : List Node) (join : JoinPolicy) (path : Path)
    (before : List Node) :
    gather Landmark.inLine (joinLine number branches join) =
      Site.landmarks ⟨path, before, .fanout branches join⟩ := by
  have named : ∀ unit ∈ (List.range branches.length).map (unitName number),
      Lexeme.isName unit = true := by
    intro unit member
    obtain ⟨position, _, rfl⟩ := List.mem_map.mp member
    exact Landmark.isName_unitName number position
  cases join with
  | waitForAll =>
      obtain ⟨rest, shape⟩ : ∃ rest, ("_run_all(ctx, " ++
          listExpression
            ((List.range branches.length).map (unitName number)) ++
            ")").toList =
          '_' :: ("run_a".toList ++ rest) := by
        simp
      rw [joinLine, gather, shape, Landmark.inLine_underscore,
        Landmark.race?_eq_none (by simp)]
      rfl
  | firstToFinish =>
      have raced : ∀ (rest : String) (names : Option (List String)),
          Landmark.race? ("_run_first(ctx, " ++ rest).toList = some names →
            gather Landmark.inLine (.line ("_run_first(ctx, " ++ rest)) =
              [.race names] := by
        intro rest names isRace
        have shape : ("_run_first(ctx, " ++ rest).toList =
            '_' :: ("run_first(ctx, " ++ rest).toList := by simp
        rw [shape] at isRace
        rw [gather, shape, Landmark.inLine_underscore, isRace]
        rfl
      simp only [joinLine, Site.landmarks, lostNames]
      by_cases empty : (targetsOf (Node.callsList branches)).names.isEmpty =
        true
      · have isEmpty : (boundNames branches).isEmpty = true := empty
        rw [if_pos isEmpty, if_pos empty, String.append_assoc]
        apply raced
        rw [← String.append_assoc]
        exact Landmark.race?_units named
      · have isNotEmpty : ¬ (boundNames branches).isEmpty = true := empty
        have notNil : (boundNames branches).names ≠ [] :=
          fun nil => empty (List.isEmpty_iff.mpr nil)
        rw [if_neg isNotEmpty, if_neg empty, String.append_assoc,
          String.append_assoc, String.append_assoc]
        apply raced
        rw [← String.append_assoc, ← String.append_assoc,
          ← String.append_assoc]
        exact Landmark.race?_names named notNil

theorem inLine_if (condition : String) :
    Landmark.inLine ("if " ++ condition ++ ":").toList =
      [.fragment (.condition condition)] := by
  rw [Landmark.inLine_eq_map (c := 'i') (by simp) (by simp) (by simp),
    Fragment.ofLine?_if]
  rfl

theorem inLine_elif (condition : String) :
    Landmark.inLine ("elif " ++ condition ++ ":").toList =
      [.fragment (.condition condition)] := by
  rw [Landmark.inLine_eq_map (c := 'e') (by simp) (by simp) (by simp),
    Fragment.ofLine?_elif]
  rfl

theorem inLine_else : Landmark.inLine "else:".toList = [] := by
  rw [Landmark.inLine_eq_map (c := 'e') (by simp) (by simp) (by simp),
    Fragment.ofLine?_else]
  rfl

theorem inLine_function (name : String) :
    Landmark.inLine ("def " ++ name ++ "(ctx):").toList = [] := by
  have none : Fragment.ofLine? ("def " ++ name ++ "(ctx):").toList = none :=
    Fragment.ofLine?_eq_none (c := 'd') (by simp) (by simp)
  rw [Landmark.inLine_eq_map (c := 'd') (by simp) (by simp) (by simp), none]
  rfl

theorem inLine_pass : Landmark.inLine "pass".toList = [] := by
  have none : Fragment.ofLine? "pass".toList = none :=
    Fragment.ofLine?_eq_none (c := 'p') (by simp) (by simp)
  rw [Landmark.inLine_eq_map (c := 'p') (by simp) (by simp) (by simp), none]
  rfl

/-- Landmarks as something that is read off the lines of a tree. -/
def Landmark.reading : LineReading Landmark where
  read := Landmark.inLine
  ofCall invocation := Site.landmarks ⟨.document, [], .call invocation⟩
  ofCondition condition :=
    [.fragment (.condition (conditionExpression condition))]
  ofJoin branches join := Site.landmarks ⟨.document, [], .fanout branches join⟩
  call _ written := landmarks_callLine written .document []
  condition {condition} _ _ isKeyword := by
    rcases isKeyword with rfl | rfl
    · exact inLine_if (conditionExpression condition)
    · exact inLine_elif (conditionExpression condition)
  join number branches join :=
    landmarks_joinLine number branches join .document []
  route number target _ := landmarks_routeLine number target
  unitHeader number position := inLine_function (unitName number position)
  routeHeader number name _ := inLine_function (routeName number name)
  otherwise := inLine_else
  pass := inLine_pass

theorem Landmark.ofSite_reading :
    Landmark.reading.ofSite = Site.landmarks := by
  funext ⟨path, before, node⟩
  cases node with
  | call invocation => rfl
  | sequence steps => rfl
  | branch condition whenTrue otherwise => rfl
  | fanout branches join => cases join <;> rfl
  | dispatch routes rules fallback =>
      rw [LineReading.ofSite, Site.landmarks, Site.fragments, List.map_map]
      exact List.flatMap_pure_eq_map _ _

/-- The line of a race stands in front of all that is written for a site behind
it. -/
theorem exists_line_before
    {lines : List (List Char)} {sites : List Site} {race use : Site}
    {mark : Landmark}
    (found : lines.filterMap Landmark.ofLine? = sites.flatMap Site.landmarks)
    (order : [race, use].Sublist sites) (isRace : race.landmarks = [mark]) :
    ∃ front line behind,
      lines = front ++ line :: behind ∧ Landmark.ofLine? line = some mark ∧
      use.landmarks.Sublist (behind.filterMap Landmark.ofLine?) := by
  obtain ⟨first, second, rfl, inFirst, inSecond⟩ :=
    List.cons_sublist_iff.mp order
  obtain ⟨before, after, rfl⟩ := List.append_of_mem inFirst
  have written : lines.filterMap Landmark.ofLine? =
      before.flatMap Site.landmarks ++ mark ::
        (after.flatMap Site.landmarks ++ second.flatMap Site.landmarks) := by
    rw [found, List.flatMap_append, List.flatMap_append, List.flatMap_cons,
      isRace]
    simp only [List.append_assoc, List.cons_append, List.nil_append]
  obtain ⟨front, rest, rfl, _, inRest⟩ :=
    List.filterMap_eq_append_iff.mp written
  obtain ⟨skipped, line, behind, rfl, _, isLine, inBehind⟩ :=
    List.filterMap_eq_cons_iff.mp inRest
  refine ⟨front ++ skipped, line, behind, by simp, isLine, ?_⟩
  rw [inBehind]
  apply List.Sublist.trans _ (List.sublist_append_right _ _)
  obtain ⟨left, right, rfl⟩ :=
    List.append_of_mem (List.singleton_sublist.mp inSecond)
  rw [List.flatMap_append, List.flatMap_cons]
  exact (List.sublist_append_left _ _).trans (List.sublist_append_right _ _)

/-- A race is told the names that its branches bind, each once and in
increasing order. -/
theorem lostNames_spec (branches : List Node) :
    lostNames branches ≠ some [] ∧
    ((lostNames branches).getD []).Pairwise (· < ·) ∧
      ∀ name, name ∈ (lostNames branches).getD [] ↔
        ∃ call ∈ Node.callsList branches, call.output = some name := by
  have listed : lostNames branches ≠ some [] ∧
      (lostNames branches).getD [] =
        (targetsOf (Node.callsList branches)).names := by
    unfold lostNames
    by_cases empty : (targetsOf (Node.callsList branches)).names = []
    · simp [empty]
    · simp [empty]
  obtain ⟨notEmpty, same⟩ := listed
  refine ⟨notEmpty, ?_, ?_⟩
  · rw [same]
    exact (targetsOf (Node.callsList branches)).increasing
  · intro name
    rw [same, ← NameSet.mem_def, targetsOf, NameSet.mem_ofList,
      List.mem_filterMap]

/-- In the function of the tree of an accepted document the landmarks are those
of the sites of the tree, in the order in which these are written.  Every race
is told exactly the names that calls in its branches bind, sorted and without
doubles, and the list is left out where there are none.  Behind every warning
there is a race that is over before the place of the warning is reached; it is
told the name, and its line stands in front of what is written for the node
that looks the name up. -/
theorem lost_names_are_announced
    {limits : Limits} {document : Value} {accepted : Accepted}
    (isAccepted : Document.accept limits document = .ok accepted)
    (library : Library) :
    ∃ codes sites, code library accepted.spec = .ok codes ∧
      sites = accepted.spec.workflow.written (.field .document "workflow") [] ∧
      sites.Perm
        (accepted.spec.workflow.sites (.field .document "workflow") []) ∧
      (treeLines (renderAll 0 codes)).filterMap Landmark.ofLine? =
        sites.flatMap Site.landmarks ∧
      (∀ site ∈ sites, ∀ branches,
        site.node = .fanout branches .firstToFinish →
        ∃ names, site.landmarks = [.race names] ∧ names ≠ some [] ∧
          (names.getD []).Pairwise (· < ·) ∧
          ∀ name, name ∈ names.getD [] ↔
            ∃ call ∈ Node.callsList branches, call.output = some name) ∧
      ∀ warning ∈ accepted.spec.analyze.warnings, ∃ race use branches names,
        race.node = .fanout branches .firstToFinish ∧
        race.landmarks = [.race (some names)] ∧
        warning.name ∈ names ∧ use.Holds warning.path ∧
        Node.EndsBefore race warning.path (.field .document "workflow")
          accepted.spec.workflow ∧
        [race, use].Sublist sites ∧
        ∃ front line behind,
          treeLines (renderAll 0 codes) = front ++ line :: behind ∧
          Landmark.ofLine? line = some (.race (some names)) ∧
          use.landmarks.Sublist (behind.filterMap Landmark.ofLine?) := by
  obtain ⟨⟨members, _, isDocument⟩, _⟩ :=
    Document.specDocument_of_accept isAccepted
  obtain ⟨_, _, tree⟩ := isDocument.workflowAt
  obtain ⟨codes, isCode, treeText⟩ := exists_treeLines_eq library isDocument
  have found : (treeLines (renderAll 0 codes)).filterMap Landmark.ofLine? =
      (accepted.spec.workflow.written (.field .document "workflow") []).flatMap
        Site.landmarks := by
    have header : Landmark.inLine "def _workflow(ctx):".toList = [] :=
      inLine_function "_workflow"
    rw [treeText, List.filterMap_eq_flatMap_toList]
    exact (flatMap_lines Landmark.inLine rfl Landmark.inLine_margin 0 _).trans
      (by
      rw [treeBlock, gather, header]
      exact Landmark.ofSite_reading ▸
        Landmark.reading.gatherAll_treeCode tree.lawful
          (treeCode_eq_emitAll 0 tree.lawful) _ [])
  refine ⟨codes, _, isCode, rfl, Node.written_perm_sites _ _ _, found, ?_, ?_⟩
  · intro site _ branches isRace
    refine ⟨lostNames branches, ?_, lostNames_spec branches⟩
    rw [Site.landmarks, isRace]
  · intro warning warned
    obtain ⟨race, use, ⟨branches, isRace, bound⟩, holds, order, ends⟩ :=
      Node.exists_race_of_mem_warnings warned
    have told : warning.name ∈ (targetsOf (Node.callsList branches)).names :=
      bound
    have notEmpty :
        ¬ (targetsOf (Node.callsList branches)).names.isEmpty = true := by
      intro empty
      rw [List.isEmpty_iff.mp empty] at told
      cases told
    have landmarks : race.landmarks =
        [.race (some (targetsOf (Node.callsList branches)).names)] := by
      simp only [Site.landmarks, isRace, lostNames, if_neg notEmpty]
    exact ⟨race, use, branches, _, isRace, landmarks, told, holds, ends, order,
      exists_line_before found order landmarks⟩

/-- A race in which one branch binds what is looked up behind it. -/
def pursuitSteps : Value :=
  visitSteps [
    .object [("type", .string "parallel"), ("join", .string "first-to-finish"),
      ("branches", .array [fetchDocument, visitCall "wait"])],
    reportDocument]

def pursuitTree : Node :=
  .sequence [.fanout [.call fetchCall, .call ⟨"wait", [], none⟩]
      .firstToFinish, .call reportCall]

theorem nodeDocument_pursuitSteps :
    Document.NodeDocument pursuitSteps pursuitTree := by
  have wait :=
    nodeDocument_visitCall (by decide +kernel : isIdentifier "wait" = true)
  refine nodeDocument_visitSteps
    (.cons ?_ (.cons nodeDocument_reportDocument .nil)) (by simp)
  exact .fanout rfl rfl (.cons nodeDocument_fetchDocument (.cons wait .nil))
    (by simp) rfl

theorem lost_names_are_announced_pursuit :
    ∃ accepted,
      Document.accept Limits.testing (.object (visitMembers pursuitSteps)) =
        .ok accepted ∧
      ∃ warning ∈ accepted.spec.analyze.warnings, warning.name = "row" ∧
        ∃ codes, code [] accepted.spec = .ok codes ∧
          ∃ line ∈ treeLines (renderAll 0 codes), ∃ names,
            Landmark.ofLine? line = some (.race (some names)) ∧
            "row" ∈ names := by
  have admissible : (visitSpec pursuitTree).Admissible Limits.testing := by
    unfold Spec.Admissible
    decide +kernel
  have warned :
      (visitSpec pursuitTree).analyze.warnings.map ScopeWarning.name =
        ["row", "row"] := by
    decide +kernel
  obtain ⟨accepted, isAccepted, isSpec⟩ := Document.exists_accept_iff.mpr
    ⟨⟨_, rfl, specMembers_visitMembers nodeDocument_pursuitSteps⟩, admissible⟩
  rw [← isSpec] at warned
  obtain ⟨warning, member, isRow⟩ :=
    List.mem_map.mp (warned ▸ List.mem_cons_self)
  obtain ⟨codes, _, isCode, _, _, _, _, each⟩ :=
    lost_names_are_announced isAccepted []
  obtain ⟨race, use, branches, names, _, _, told, _, _, _, front, line, behind,
    text, isLine, _⟩ :=
    each warning member
  refine ⟨accepted, isAccepted, warning, member, isRow, codes, isCode, line,
    ?_, names, isLine, isRow ▸ told⟩
  rw [text]
  exact List.mem_append_right _ List.mem_cons_self

end Program

end Workflow
