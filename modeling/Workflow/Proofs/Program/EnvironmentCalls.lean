import Workflow.Proofs.Program.CallMeaning
import Workflow.Proofs.Program.EnvironmentExpressions
import Workflow.Proofs.Program.LocalFunctions
import Workflow.Proofs.Program.TreeReading

/-!
# What the tree of a program reads from the environment

A call reads the credentials that the document gives a value for, and gets
their values from the environment instead.  The other lines that are written
for a tree read nothing.
-/

namespace Workflow

/-- Whether a parameter is a credential whose value stands in the document
itself. -/
def isLiteralSecret (param : String × Value) : Bool :=
  isSecretName param.1 && param.2.mentions.isEmpty && !param.2.isNull

/-- The credentials of a call whose values stand in the document, in declared
order. -/
def ToolCall.literalSecrets (call : ToolCall) : List String :=
  (call.params.filter isLiteralSecret).map Prod.fst

namespace Program.Environment

open Code SelfCheck

/-- The reads of credentials. -/
def readsOf (names : List String) : List (Option String) :=
  names.map fun name => some (environmentVariable name)

/-- What a parameter adds to the reads of its call. -/
def readsOfParam (param : String × Value) : List (Option String) :=
  if isLiteralSecret param then readsOf [param.1] else []

theorem flatten_readsOfParam (params : List (String × Value)) :
    (params.map readsOfParam).flatten =
      readsOf ((params.filter isLiteralSecret).map Prod.fst) := by
  induction params with
  | nil => rfl
  | cons param rest induction =>
      rw [List.map_cons, List.flatten_cons, induction, readsOfParam,
        List.filter_cons]
      split
      · rfl
      · rfl

/-- No word that Python keeps for itself is the name of a credential. -/
theorem not_isKeyword_of_isSecretName
    {name : String} (secret : isSecretName name = true) :
    isKeyword name = false := by
  have all : (keywords.all fun word => !isSecretName word) = true := by
    decide +kernel
  apply Bool.eq_false_iff.mpr
  intro keyword
  have free :=
    List.all_eq_true.mp all name (by simpa [isKeyword] using keyword)
  simp [secret] at free

/-- What is moved behind the other arguments of a call reads nothing. -/
theorem filter_isKeyword (params : List (String × Value)) :
    (params.filter (!isKeyword ·.1)).filter isLiteralSecret =
      params.filter isLiteralSecret ∧
      (params.filter (isKeyword ·.1)).filter isLiteralSecret = [] := by
  have free : ∀ param : String × Value, isLiteralSecret param = true →
      isKeyword param.1 = false := by
    intro param secret
    simp only [isLiteralSecret, Bool.and_eq_true] at secret
    exact not_isKeyword_of_isSecretName secret.1.1
  rw [List.filter_filter, List.filter_filter]
  constructor
  · apply List.filter_congr
    intro param _
    cases secret : isLiteralSecret param with
    | false => rfl
    | true => simp [free param secret]
  · apply List.filter_eq_nil_iff.mpr
    intro param _
    cases secret : isLiteralSecret param with
    | false => simp
    | true => simp [free param secret]

theorem shows_argumentExpression
    {name : String} {value : Value} {text : String}
    (written : argumentExpression name value = .ok text) :
    Shows text.toList (readsOfParam (name, value)) := by
  obtain ⟨references, templates, written⟩ := bind_eq_ok_iff.mp written
  rw [Value.references_eq_ok templates] at written
  by_cases secret : isLiteralSecret (name, value) = true
  · rw [readsOfParam, if_pos secret]
    rw [isLiteralSecret] at secret
    rw [if_pos secret] at written
    obtain rfl := Except.ok.inj written
    exact (closes_environmentRead name).shows
  · rw [readsOfParam, if_neg secret]
    rw [isLiteralSecret] at secret
    rw [if_neg secret] at written
    exact shows_valueExpression written

/-- An argument that is written for a parameter. -/
structure ShowsArgument (written : String × String) (param : String × Value) :
    Prop where
  name : written.1 = param.1
  identifier : isIdentifier param.1 = true
  shows : Shows written.2.toList (readsOfParam param)

theorem showsArguments
    {params : Members} {expressions : List (String × String)}
    (written : argumentExpressions params = .ok expressions)
    (identifiers : ∀ param ∈ params, isIdentifier param.1 = true) :
    List.Forall₂ ShowsArgument expressions params := by
  induction params generalizing expressions with
  | nil =>
      obtain rfl := Except.ok.inj written
      exact .nil
  | cons param params induction =>
      obtain ⟨name, value⟩ := param
      obtain ⟨first, ofParam, others⟩ := bind_eq_ok_iff.mp written
      obtain ⟨later, ofRest, joined⟩ := bind_eq_ok_iff.mp others
      obtain ⟨identifier, restIdentifiers⟩ :=
        List.forall_mem_cons.mp identifiers
      obtain rfl := Except.ok.inj joined
      exact .cons ⟨rfl, identifier, shows_argumentExpression ofParam⟩
        (induction ofRest restIdentifiers)

theorem ShowsArgument.named
    {written : String × String} {param : String × Value}
    (argument : ShowsArgument written param) :
    Shows (written.1 ++ "=" ++ written.2).toList (readsOfParam param) := by
  have name : Shows written.1.toList [] := by
    rw [argument.name]
    exact shows_name fun c member =>
      isFieldChar_of_isIdentifier argument.identifier member
  have front :=
    name.before (closes_sign (by decide : isSign '=' = true)) (by decide)
  have shape : (written.1 ++ "=" ++ written.2).toList =
      (written.1.toList ++ ['=']) ++ written.2.toList := by simp
  rw [shape]
  exact front.before_shows argument.shows

section Arguments

variable {expressions : List (String × String)} {params : Members}
  (each : List.Forall₂ ShowsArgument expressions params)

include each

theorem forall₂_filter_name (kind : String → Bool) :
    List.Forall₂ ShowsArgument (expressions.filter (kind ·.1))
      (params.filter (kind ·.1)) := by
  apply List.rel_filter _ each
  intro written param argument
  simp only [argument.name]

/-- The arguments under a keyword are written as one dictionary, if there are
any. -/
theorem forall₂_unpacked :
    ∃ parts, parts.flatten = (params.map readsOfParam).flatten ∧
      List.Forall₂ (fun text part => Shows text.toList part)
        (if expressions.isEmpty then []
        else ["**" ++
          dictionaryExpression
            (expressions.map fun written => entry written.1 written.2)])
        parts := by
  have entries : List.Forall₂ (fun text part => Shows text.toList part)
      (expressions.map fun written => entry written.1 written.2)
      (params.map readsOfParam) := by
    apply List.forall₂_map_left_iff.mpr
    apply List.forall₂_map_right_iff.mpr
    apply each.imp
    intro written param argument
    exact shows_entry argument.shows
  cases each with
  | nil => exact ⟨[], rfl, .nil⟩
  | cons argument others =>
      have stars : Closes "**".toList [] := closes_front (by decide)
      refine ⟨_, List.flatten_singleton, .cons ?_ .nil⟩
      rw [String.toList_append]
      exact (stars.before (closes_dictionary entries)).shows

theorem shows_arguments :
    Shows (Text.commaSeparated (arguments expressions)).toList
      (readsOf ((params.filter isLiteralSecret).map Prod.fst)) := by
  have plain : List.Forall₂ (fun text part => Shows text.toList part)
      ((expressions.filter (!isKeyword ·.1)).map fun argument =>
        argument.1 ++ "=" ++ argument.2)
      ((params.filter (!isKeyword ·.1)).map readsOfParam) := by
    apply List.forall₂_map_left_iff.mpr
    apply List.forall₂_map_right_iff.mpr
    apply (forall₂_filter_name each (!isKeyword ·)).imp
    intro written param argument
    exact argument.named
  obtain ⟨parts, flattened, reserved⟩ :=
    forall₂_unpacked (forall₂_filter_name each isKeyword)
  obtain ⟨ofPlain, ofReserved⟩ := filter_isKeyword params
  have shows := shows_commaSeparated (List.rel_append plain reserved)
  rw [List.flatten_append, flattened, flatten_readsOfParam,
    flatten_readsOfParam, ofPlain, ofReserved, List.map_nil, readsOf, readsOf,
    List.map_nil, List.append_nil] at shows
  simp only [arguments, List.partition_eq_filter_filter]
  exact shows

end Arguments

theorem closes_callExpression
    {call : ToolCall} (lawful : call.Lawful) {text : String}
    (written : callExpression call = .ok text) :
    Closes text.toList (readsOf call.literalSecrets) := by
  obtain ⟨expressions, ofParams, returned⟩ := bind_eq_ok_iff.mp written
  obtain rfl := Except.ok.inj returned
  have each :=
    showsArguments ofParams fun param member => (lawful.params param member).1
  have front : IsName "tool_" := by simp [IsName, Reference.isFieldChar]
  have name : IsName ("tool_" ++ call.tool) :=
    front.append fun c member => isFieldChar_of_isIdentifier lawful.tool member
  exact closes_application ("tool_" ++ call.tool) (shows_name name)
    (shows_arguments each) (by simp)

theorem reads_callLine
    {call : ToolCall} {code : Code} (lawful : call.Lawful)
    (written : callLine call = .ok code) :
    gather reads code = readsOf call.literalSecrets := by
  unfold callLine at written
  split at written
  · cases written
  · rename_i text isText
    have closes := closes_callExpression lawful isText
    split at written
    · rename_i target _
      obtain rfl := Except.ok.inj written
      have comma : Closes ", ".toList [] := closes_front (by decide)
      have arguments :=
        (((closes_quoted target).before comma).before closes).shows
      rw [gather]
      exact (closes_application "ctx.set" (shows_quiet (by decide)) arguments
          (by simp)).reads
    · obtain rfl := Except.ok.inj written
      rw [gather]
      exact closes.reads

theorem shows_function {name : String} (isName : IsName name) :
    Shows ("def " ++ name ++ "(ctx):").toList [] := by
  have front : Closes "def ".toList [] := closes_front (by decide)
  have arguments : Closes "(ctx):".toList [] := closes_front (by decide)
  rw [String.toList_append, String.toList_append, List.append_assoc]
  exact (front.before ((shows_name isName).before arguments (by decide))).shows

theorem reads_routeLine
    (number : Nat) {target : String}
    (identifier : isIdentifier target = true) :
    gather reads (routeLine number target) = [] := by
  have arguments : Shows "ctx".toList [] := shows_quiet (by decide)
  rw [routeLine, gather]
  exact (closes_application (routeName number target)
      (shows_name (IsName.route number identifier)) arguments (by simp)).reads

theorem reads_joinLine
    (number : Nat) (branches : List Node) (join : JoinPolicy) :
    gather reads (joinLine number branches join) = [] := by
  have units : Closes (listExpression
      ((List.range branches.length).map (unitName number))).toList [] := by
    apply closes_listExpression
    intro unit member
    obtain ⟨position, _, rfl⟩ := List.mem_map.mp member
    exact shows_name (IsName.unit number position)
  have names : ∀ bound : List String,
      Closes (listExpression (bound.map Text.quoted)).toList [] := by
    intro bound
    apply closes_listExpression
    intro name member
    obtain ⟨text, _, rfl⟩ := List.mem_map.mp member
    exact (closes_quoted text).shows
  have first : Closes "ctx, ".toList [] := closes_front (by decide)
  have comma : Closes ", ".toList [] := closes_front (by decide)
  cases join with
  | waitForAll =>
      rw [joinLine, gather]
      exact (closes_application "_run_all" (shows_quiet (by decide))
          (first.before units).shows (by simp)).reads
  | firstToFinish =>
      simp only [joinLine]
      split
      · rw [gather]
        exact (closes_application "_run_first" (shows_quiet (by decide))
          (first.before units).shows (by simp)).reads
      · have told :=
          units.before (comma.before (names (boundNames branches).names))
        rw [gather]
        exact (closes_application "_run_first" (shows_quiet (by decide))
          (first.before told).shows (by simp)).reads

/-- Reads as something that is read off the lines of a tree. -/
def reading : LineReading (Option String) where
  read := reads
  ofCall call := readsOf call.literalSecrets
  ofCondition _ := []
  ofJoin _ _ := []
  call := reads_callLine
  condition := reads_condition
  join := reads_joinLine
  route := reads_routeLine
  unitHeader number position :=
    (shows_function (IsName.unit number position)).reads
  routeHeader number _ identifier :=
    (shows_function (IsName.route number identifier)).reads
  otherwise := reads_eq_nil (by decide)
  pass := reads_eq_nil (by decide)

theorem gather_treeBlock {spec : Spec} (lawful : spec.workflow.Lawful) :
    gather reads (treeBlock spec) =
      spec.workflow.calls.flatMap fun call => readsOf call.literalSecrets := by
  have alone : reading.OfCallsAlone := ⟨fun _ => rfl, fun _ _ => rfl⟩
  have header : reads "def _workflow(ctx):".toList = [] :=
    reads_eq_nil (by decide)
  have body :=
    reading.gatherAll_treeCode lawful (treeCode_eq_emitAll 0 lawful) .document
      []
  rw [alone.flatMap_written] at body
  rw [treeBlock, gather, header]
  exact body

end Program.Environment

end Workflow
