import Workflow.Proofs.Document.Conformance
import Workflow.Proofs.Program.CallMeaning
import Workflow.Proofs.Program.Fragments

/-!
# Lookups in the function of the tree

A reference that the analysis looks at becomes one lookup in the program, and
every lookup that is put into the program comes from such a reference.  What
was put into a call is read off the call, and what was put into a condition is
read off the two texts, as it was declared and as it is asked.
-/

namespace Workflow

namespace Program

/-- A lookup in the program, and the path of the parameter or the condition
that it stands in. -/
structure Insertion where
  path : Path
  term : Term

def Insertion.ofOccurrence (occurrence : Occurrence) : Insertion :=
  ⟨occurrence.path, Term.ofReference occurrence.reference⟩

namespace Term

mutual

/-- The lookups in a term, from left to right. -/
def lookups : Term → List Term
  | .list items => lookupsList items
  | .dictionary entries => lookupsEntries entries
  | .application .lookup arguments =>
      .application .lookup arguments :: lookupsList arguments
  | .application _ arguments => lookupsList arguments
  | _ => []

def lookupsList : List Term → List Term
  | [] => []
  | item :: rest => lookups item ++ lookupsList rest

def lookupsEntries : List (String × Term) → List Term
  | [] => []
  | (_, term) :: rest => lookups term ++ lookupsEntries rest

end

theorem lookupsList_eq_flatMap (items : List Term) :
    lookupsList items = items.flatMap lookups := by
  induction items with
  | nil => rfl
  | cons item rest induction => rw [lookupsList, induction, List.flatMap_cons]

theorem lookups_ofField (field : String) : (ofField field).lookups = [] := by
  unfold ofField
  split <;> rfl

theorem lookups_ofReference (reference : Reference) :
    (ofReference reference).lookups = [ofReference reference] := by
  have fields : (reference.path.map ofField).flatMap lookups = [] := by
    simp [lookups_ofField]
  rw [ofReference, lookups, lookupsList, lookupsList_eq_flatMap, fields]
  rfl

theorem lookups_ofSegment (segment : Template.Segment) :
    (ofSegment segment).lookups =
      segment.reference?.toList.map ofReference := by
  cases segment with
  | literal content => rfl
  | reference target => exact lookups_ofReference target

theorem lookupsList_ofSegments (segments : List Template.Segment) :
    lookupsList (segments.map ofSegment) =
      (segments.filterMap Template.Segment.reference?).map ofReference := by
  induction segments with
  | nil => rfl
  | cons segment rest induction =>
      rw [List.map_cons, lookupsList, lookups_ofSegment, induction,
        List.filterMap_cons]
      cases segment.reference? <;> rfl

theorem lookups_ofString (content : String) :
    (ofString content).lookups =
      (Template.references content).map ofReference := by
  unfold ofString
  split
  · rename_i none
    rw [none]
    rfl
  · split
    · rename_i reference single
      rw [Template.references, Template.exactly?_eq_some_iff.mp single]
      exact lookups_ofReference reference
    · have join :
          ∀ items, (application .join items).lookups = lookupsList items :=
        fun _ => rfl
      rw [join, Template.references, ← Template.filterMap_parts,
        lookupsList_ofSegments]

mutual

theorem lookups_ofValue (value : Value) :
    (ofValue value).lookups = value.mentions.map ofReference := by
  match value with
  | .null => rfl
  | .bool _ => rfl
  | .number (.integer _) => rfl
  | .number (.double _) => rfl
  | .string content => exact lookups_ofString content
  | .array items => exact lookups_ofValues items
  | .object members => exact lookups_ofMembers members

theorem lookups_ofValues (items : List Value) :
    lookupsList (ofValues items) =
      (Value.mentionsList items).map ofReference := by
  match items with
  | [] => rfl
  | item :: rest =>
      rw [ofValues, lookupsList, Value.mentionsList, List.map_append,
        lookups_ofValue item, lookups_ofValues rest]

theorem lookups_ofMembers (members : List (String × Value)) :
    lookupsEntries (ofMembers members) =
      (Value.mentionsMembers members).map ofReference := by
  match members with
  | [] => rfl
  | (_, value) :: rest =>
      rw [ofMembers, lookupsEntries, Value.mentionsMembers, List.map_append,
        lookups_ofValue value, lookups_ofMembers rest]

end

/-- A credential that is read from the environment mentions nothing. -/
theorem lookups_ofParam (name : String) (value : Value) :
    (ofParam name value).lookups = value.mentions.map ofReference := by
  unfold ofParam
  split
  · rename_i credential
    rw [credential.2.1]
    rfl
  · exact lookups_ofValue value

end Term

def argumentInsertions (path : Path) (argument : String × Term) :
    List Insertion :=
  argument.2.lookups.map fun term => ⟨.field path argument.1, term⟩

/-- The lookups in the arguments of a call. -/
def Call.insertions (path : Path) (call : Call) : List Insertion :=
  (call.named ++ call.unpacked).flatMap (argumentInsertions path)

theorem map_ofParams
    (path : Path) (before : List Node) {params : Members}
    (templates : ∀ param ∈ params, ∃ references,
      param.2.references = .ok references) :
    (Occurrence.ofParams path before params).map Insertion.ofOccurrence =
      (params.map fun param => (param.1, Term.ofParam param.1 param.2)).flatMap
        (argumentInsertions path) := by
  rw [Occurrence.ofParams, List.map_flatMap, List.flatMap_map]
  apply List.flatMap_congr
  intro param member
  obtain ⟨references, found⟩ := templates param member
  rw [argumentInsertions, Term.lookups_ofParam, ← Value.references_eq_ok found,
    found]
  simp [Insertion.ofOccurrence]

/-- Compares a text with what was made of it and lists the references that were
replaced by their lookups; nothing when the texts differ otherwise. -/
def inserted? (source emitted : List Char) : Option (List Reference) :=
  match source, emitted with
  | [], [] => some []
  | c :: source, d :: emitted =>
      if c = d then inserted? source emitted
      else
        match Reference.match? (c :: source) with
        | some (reference, length) =>
            if (lookup reference).toList.isPrefixOf (d :: emitted) then
              (inserted? (source.drop (length - 1))
                ((d :: emitted).drop (lookup reference).toList.length)).map
                  (reference :: ·)
            else none
        | none => none
  | _, _ => none
termination_by source.length
decreasing_by
  all_goals
    simp_wf
    try omega

theorem inserted?_lookup {target : Reference} (wellFormed : target.WellFormed)
    (after emitted : List Char) :
    inserted? (target.chars ++ after) ((lookup target).toList ++ emitted) =
      (inserted? after emitted).map (target :: ·) := by
  have found := wellFormed.match?_chars after
  have starts :
      (lookup target).toList.isPrefixOf ((lookup target).toList ++ emitted) =
        true :=
    List.isPrefixOf_iff_prefix.mpr (List.prefix_append _ _)
  obtain ⟨rest, chars⟩ : ∃ rest, target.chars = '\x7b' :: rest := ⟨_, rfl⟩
  obtain ⟨more, written⟩ : ∃ more, (lookup target).toList = 'c' :: more :=
    List.head?_eq_some_iff.mp (by simp [lookup])
  rw [chars, List.cons_append] at found ⊢
  rw [written, List.cons_append] at starts ⊢
  rw [inserted?, if_neg (by decide), found]
  simp only [written, starts, if_true, List.length_cons, Nat.add_sub_cancel,
    List.drop_succ_cons, List.drop_left]

theorem inserted?_substitute (text : List Char) :
    inserted? text
      (Template.substitute (fun reference => (lookup reference).toList) text) =
      some ((Template.atoms text).filterMap Atom.reference?) := by
  unfold Template.substitute
  induction text using Template.atoms_induction with
  | nil => simp [inserted?]
  | char c rest _ induction =>
      rw [List.flatMap_cons, List.singleton_append, inserted?, if_pos rfl,
        induction]
      rfl
  | reference target after wellFormed induction =>
      rw [List.flatMap_cons, inserted?_lookup wellFormed, induction]
      rfl

/-- Blanks at the ends of a condition hold no references. -/
theorem references_trim (condition : String) :
    (Template.atoms (Text.trim condition.toList)).filterMap Atom.reference? =
      Template.references condition := by
  obtain ⟨lead, trail, parts, leadBlank, trailBlank⟩ :=
    Text.exists_eq_append_trim condition.toList
  have leadForeign :=
    fun c member => Reference.isForeign_of_isBlank (leadBlank c member)
  have trailForeign :=
    fun c member => Reference.isForeign_of_isBlank (trailBlank c member)
  have chars : ∀ text : List Char,
      (text.map Atom.char).filterMap Atom.reference? = [] := by
    intro text
    simp [List.filterMap_map, Function.comp_def, Atom.reference?]
  rw [Template.references]
  generalize Text.trim condition.toList = core at parts ⊢
  rw [parts, Template.atoms_foreign_append leadForeign,
    Template.atoms_append_foreign _ trailForeign, List.filterMap_append,
    List.filterMap_append, chars, chars, List.nil_append, List.append_nil]

/-- The lookups that were put into a condition. -/
def conditionInsertions? (path : Path) (condition emitted : String) :
    Option (List Insertion) :=
  (inserted? (Text.trim condition.toList) emitted.toList).map fun references =>
    references.map fun reference => ⟨path, Term.ofReference reference⟩

theorem conditionInsertions?_eq
    (path : Path) (before : List Node) (condition : String) :
    conditionInsertions? path condition (conditionExpression condition) =
      some ((Occurrence.ofCondition path before condition).map
          Insertion.ofOccurrence) := by
  rw [conditionInsertions?, conditionExpression, String.toList_ofList,
    inserted?_substitute, references_trim, Occurrence.ofCondition,
    List.map_map]
  rfl

def ruleInsertions? (path : Path) (position : Nat) :
    List Rule → List Fragment → Option (List Insertion)
  | [], [] => some []
  | rule :: rules, .condition emitted :: fragments => do
      let first ← conditionInsertions?
        (.field (path.item "rules" position) "condition") rule.condition
        emitted
      let later ← ruleInsertions? path (position + 1) rules fragments
      return first ++ later
  | _, _ => none

theorem ruleInsertions?_eq (path : Path) (before : List Node) (position : Nat)
    (rules : List Rule) :
    ruleInsertions? path position rules
        (rules.map fun rule =>
          .condition (conditionExpression rule.condition)) =
      some ((Occurrence.ofRules path before position rules).map
          Insertion.ofOccurrence) := by
  induction rules generalizing position with
  | nil => rfl
  | cons rule rest induction =>
      simp only [List.map_cons, ruleInsertions?,
        conditionInsertions?_eq _ before, induction, Occurrence.ofRules,
        List.map_append, Option.bind_eq_bind, Option.bind_some,
        Option.pure_def]

end Program

open Program

/-- The lookups that were put into what is written for a node itself, read off
its calls and conditions. -/
def Site.insertions? (site : Site) : Option (List Insertion) :=
  match site.node, site.fragments with
  | .call _, [.call text] =>
      (Call.read? text).map (Call.insertions (.field site.path "params"))
  | .branch condition _ _, [.condition emitted] =>
      conditionInsertions? (.field site.path "condition") condition emitted
  | .dispatch _ rules _, fragments =>
      ruleInsertions? site.path 0 rules fragments
  | .sequence _, [] => some []
  | .fanout _ _, [] => some []
  | _, _ => none

namespace Program

/-- A list has, for every path, the same lookups in the same order as
another. -/
def SameAtPaths (left right : List Insertion) : Prop :=
  ∀ path, left.filter (·.path = path) = right.filter (·.path = path)

theorem SameAtPaths.perm
    {left right : List Insertion} (same : SameAtPaths left right) :
    left.Perm right := by
  classical
  rw [List.perm_iff_count]
  intro insertion
  have counted : ∀ insertions : List Insertion,
      (insertions.filter (·.path = insertion.path)).count insertion =
        insertions.count insertion := by
    intro insertions
    exact List.count_filter (by simp)
  rw [← counted left, ← counted right, same insertion.path]

/-- Moving the arguments under some names behind the others leaves those under
one name in order. -/
theorem filter_name_partition
    (moved : String → Bool) (given : List (String × Term)) (name : String) :
    (given.filter (!moved ·.1) ++ given.filter (moved ·.1)).filter
      (·.1 = name) =
      given.filter (·.1 = name) := by
  have chosen : ∀ kind : Bool, given.filter (fun argument =>
      decide (argument.1 = name) && (moved argument.1 == kind)) =
        if moved name = kind then given.filter (·.1 = name) else [] := by
    intro kind
    by_cases isKind : moved name = kind
    · rw [if_pos isKind]
      apply List.filter_congr
      intro argument _
      by_cases same : argument.1 = name <;> simp [same, isKind]
    · rw [if_neg isKind, List.filter_eq_nil_iff]
      intro argument _
      by_cases same : argument.1 = name <;> simp [same, isKind]
  have kept := chosen false
  have later := chosen true
  simp only [beq_false, beq_true] at kept later
  rw [List.filter_append, List.filter_filter, List.filter_filter, kept, later]
  cases moved name <;> simp

theorem filter_argumentInsertions
    (path target : Path) (given : List (String × Term)) :
    (given.flatMap (argumentInsertions path)).filter (·.path = target) =
      (given.filter fun argument =>
        Path.field path argument.1 = target).flatMap
        (argumentInsertions path) := by
  induction given with
  | nil => rfl
  | cons argument rest induction =>
      rw [List.flatMap_cons, List.filter_append, induction, List.filter_cons]
      by_cases same : Path.field path argument.1 = target
      · simp [argumentInsertions, List.filter_map, Function.comp_def, same]
      · simp [argumentInsertions, List.filter_map, Function.comp_def, same]

/-- The arguments of a call hold the same lookups as they do in declared
order. -/
theorem sameAtPaths_arguments (path : Path) (given : List (String × Term)) :
    SameAtPaths
      ((given.filter (!isKeyword ·.1) ++ given.filter (isKeyword ·.1)).flatMap
        (argumentInsertions path))
      (given.flatMap (argumentInsertions path)) := by
  intro target
  rw [filter_argumentInsertions, filter_argumentInsertions]
  cases target with
  | field parent key =>
      by_cases same : path = parent
      · subst same
        have ofKey : ∀ argument : String × Term,
            decide (Path.field path argument.1 = .field path key) = decide
              (argument.1 = key) := by
          simp
        simp only [ofKey, filter_name_partition]
      · simp [same]
  | document => simp
  | named text => simp
  | index parent position => simp

/-- The lookups at a node are those of the references that are looked at there:
at every path the same ones, in the same order. -/
theorem exists_insertions {site : Site} (lawful : site.node.Lawful) :
    ∃ found, site.insertions? = some found ∧
      SameAtPaths found (site.occurrences.map Insertion.ofOccurrence) := by
  obtain ⟨path, before, node⟩ := site
  cases node with
  | call invocation =>
      obtain ⟨text, written, read⟩ := read?_callExpression lawful
      have fragments :
          Site.fragments ⟨path, before, .call invocation⟩ = [.call text] := by
        simp only [Site.fragments, written]
      refine ⟨(Call.ofTool invocation).insertions (.field path "params"), ?_,
        ?_⟩
      · simp only [Site.insertions?, fragments, read, Option.map_some]
      · rw [Site.occurrences,
          map_ofParams _ _ fun param member => (lawful.params param member).2]
        exact sameAtPaths_arguments _ _
  | sequence steps => exact ⟨[], rfl, fun _ => rfl⟩
  | fanout branches join => exact ⟨[], rfl, fun _ => rfl⟩
  | branch condition whenTrue otherwise =>
      refine ⟨_, conditionInsertions?_eq _ before condition, fun _ => rfl⟩
  | dispatch routes rules fallback =>
      refine ⟨_, ruleInsertions?_eq path before 0 rules, fun _ => rfl⟩

end Program

namespace Node

mutual

theorem Lawful.sites
    {node : Node} (lawful : node.Lawful) (path : Path) (before : List Node) :
    ∀ site ∈ node.sites path before, site.node.Lawful := by
  match node with
  | .call invocation => simpa [Node.sites] using lawful
  | .sequence steps =>
      simpa [Node.sites, lawful]
        using LawfulList.sitesSteps lawful.2 path 0 before
  | .branch condition whenTrue none =>
      simpa [Node.sites, lawful]
        using Lawful.sites lawful.2 (.field path "if_true") before
  | .branch condition whenTrue (some otherwise) =>
      simpa [Node.sites, lawful, or_imp, forall_and] using
        And.intro (Lawful.sites lawful.2.1 (.field path "if_true") before)
          (Lawful.sites lawful.2.2 (.field path "if_false") before)
  | .fanout branches join =>
      simpa [Node.sites, lawful]
        using LawfulList.sitesBranches lawful.2 path 0 before
  | .dispatch routes rules fallback =>
      simpa [Node.sites, lawful] using
        LawfulRoutes.sites lawful.2.2.1 (.field path "sub_workflows") before
termination_by structural node

theorem LawfulList.sitesSteps
    {steps : List Node} (lawful : LawfulList steps) (path : Path)
    (position : Nat) (before : List Node) :
    ∀ site ∈ Node.sitesSteps path position before steps, site.node.Lawful := by
  match steps with
  | [] => simp [Node.sitesSteps]
  | node :: rest =>
      exact List.forall_mem_append.mpr ⟨Lawful.sites lawful.1 _ before,
        LawfulList.sitesSteps lawful.2 path (position + 1) _⟩
termination_by structural steps

theorem LawfulList.sitesBranches
    {branches : List Node} (lawful : LawfulList branches) (path : Path)
    (position : Nat) (before : List Node) :
    ∀ site ∈ Node.sitesBranches path position before branches,
      site.node.Lawful := by
  match branches with
  | [] => simp [Node.sitesBranches]
  | node :: rest =>
      exact List.forall_mem_append.mpr ⟨Lawful.sites lawful.1 _ before,
        LawfulList.sitesBranches lawful.2 path (position + 1) before⟩
termination_by structural branches

theorem LawfulRoutes.sites
    {routes : List (String × Node)} (lawful : LawfulRoutes routes)
    (path : Path) (before : List Node) :
    ∀ site ∈ Node.sitesRoutes path before routes, site.node.Lawful := by
  match routes with
  | [] => simp [Node.sitesRoutes]
  | (name, node) :: rest =>
      exact List.forall_mem_append.mpr ⟨Lawful.sites lawful.2.1 _ before,
        LawfulRoutes.sites lawful.2.2 path before⟩
termination_by structural routes

end

end Node

/-- The scope in which a workflow starts: its inputs are bound. -/
def Spec.scope (spec : Spec) : Scope :=
  Scope.ofNames (NameSet.ofList (spec.inputs.map Input.name))

theorem Spec.Closed.mem_guaranteed
    {spec : Spec} (closed : spec.Closed) {occurrence : Occurrence}
    (member : occurrence ∈
      spec.workflow.occurrences (.field .document "workflow") []) :
    occurrence.reference.root ∈
      (spec.scope.behind occurrence.before).guaranteed := by
  rw [Scope.mem_guaranteed_behind]
  simpa only [Spec.scope, Scope.ofNames, NameSet.mem_ofList]
    using closed occurrence member

namespace Program

/-- The calls and conditions in the program of an accepted document are those
of the nodes of its tree.  At every node the lookups that were put into them
are those of the references that the analysis finds there: at every path the
same ones in the same order, so the same ones in all, and each of a root that
is bound for sure where the node stands. -/
theorem insertions_eq_occurrences
    {limits : Limits} {document : Value} {accepted : Accepted}
    (isAccepted : Document.accept limits document = .ok accepted)
    (library : Library) :
    ∃ codes sites, code library accepted.spec = .ok codes ∧
      accepted.spec.workflow.sites (.field .document "workflow") [] = sites ∧
      (∀ scope : Scope,
        (accepted.spec.workflow.flow scope
          (.field .document "workflow")).findings =
          (sites.flatMap Site.occurrences).flatMap scope.findingsAt) ∧
      ((treeLines (Code.renderAll 0 codes)).filterMap Fragment.ofLine?).Perm
        (sites.flatMap Site.fragments) ∧
      ∀ site ∈ sites,
        (∃ found, site.insertions? = some found ∧
          found.Perm (site.occurrences.map Insertion.ofOccurrence) ∧
          SameAtPaths found (site.occurrences.map Insertion.ofOccurrence)) ∧
        ∀ occurrence ∈ site.occurrences,
          occurrence.reference.root ∈
            (accepted.spec.scope.behind site.before).guaranteed := by
  obtain ⟨⟨members, _, isDocument⟩, admissible⟩ :=
    Document.specDocument_of_accept isAccepted
  obtain ⟨_, _, tree⟩ := isDocument.workflowAt
  obtain ⟨codes, isCode, treeText⟩ := exists_treeLines_eq library isDocument
  obtain ⟨_, closed⟩ := Document.admissible_iff.mp admissible
  have listed := accepted.spec.workflow.occurrences_eq_flatMap_sites
    (.field .document "workflow") []
  refine ⟨codes, _, isCode, rfl, ?_, ?_, ?_⟩
  · intro scope
    rw [← listed]
    exact accepted.spec.workflow.findings_flow scope
      (.field .document "workflow") []
  · rw [treeText]
    exact fragments_treeLines tree.lawful _
  · intro site member
    obtain ⟨found, isFound, same⟩ :=
      exists_insertions (tree.lawful.sites _ _ site member)
    refine ⟨⟨found, isFound, same.perm, same⟩, ?_⟩
    intro occurrence isOccurrence
    rw [← (Site.of_mem_occurrences isOccurrence).2]
    apply closed.mem_guaranteed
    rw [listed]
    exact List.mem_flatMap.mpr ⟨site, member, isOccurrence⟩

/-- A tree with references in parameters, in a condition with blanks at its
ends, and in a rule. -/
def consultSteps : Value :=
  visitSteps [fetchDocument,
    .object [("type", .string "conditional"),
      ("condition", .string " \x7b\x7brow.id\x7d\x7d > 0 "),
      ("if_true", reportDocument)],
    .object [("type", .string "orchestrator"),
      ("sub_workflows", .object [("only", visitCall "leave")]),
      ("rules",
        .array [.object [("condition", .string "\x7b\x7brow\x7d\x7d == 1"),
          ("target", .string "only")]])]]

def consultTree : Node :=
  .sequence [.call fetchCall,
    .branch " \x7b\x7brow.id\x7d\x7d > 0 " (.call reportCall) none,
    .dispatch (Sorted.ofList [("only", .call ⟨"leave", [], none⟩)])
      [⟨"\x7b\x7brow\x7d\x7d == 1", "only"⟩] none]

theorem nodeDocument_consultSteps :
    Document.NodeDocument consultSteps consultTree := by
  have leave :=
    nodeDocument_visitCall (by decide +kernel : isIdentifier "leave" = true)
  have condition :
      Condition.check " \x7b\x7brow.id\x7d\x7d > 0 " = .ok () := by
    decide +kernel
  have routing :
      LawfulRouting ["only"] [⟨"\x7b\x7brow\x7d\x7d == 1", "only"⟩] none := by
    refine ⟨?_, by simp, .inl (by simp)⟩
    rw [List.forall_mem_singleton]
    exact ⟨by decide +kernel, by simp⟩
  refine nodeDocument_visitSteps
    (.cons nodeDocument_fetchDocument (.cons ?_ (.cons ?_ .nil))) (by simp)
  · exact .branch rfl rfl condition rfl nodeDocument_reportDocument (.inl rfl)
  · exact .dispatch rfl rfl (.cons (by decide +kernel) leave .nil) (by simp)
      (.inl ⟨_, rfl, .cons ⟨_, rfl, rfl, rfl⟩ .nil⟩) (.inl rfl) routing

theorem insertions_eq_occurrences_consultSteps :
    ∃ accepted,
      Document.accept Limits.testing (.object (visitMembers consultSteps)) =
        .ok accepted ∧
      accepted.spec.workflow = consultTree ∧
      ∃ codes sites, code [] accepted.spec = .ok codes ∧
        accepted.spec.workflow.sites (.field .document "workflow") [] = sites ∧
        ((treeLines (Code.renderAll 0 codes)).filterMap Fragment.ofLine?).Perm
          (sites.flatMap Site.fragments) ∧
        ∀ site ∈ sites, ∃ found, site.insertions? = some found ∧
          SameAtPaths found (site.occurrences.map Insertion.ofOccurrence) := by
  have admissible : (visitSpec consultTree).Admissible Limits.testing := by
    unfold Spec.Admissible
    decide +kernel
  obtain ⟨accepted, isAccepted, isSpec⟩ := Document.exists_accept_iff.mpr
    ⟨⟨_, rfl, specMembers_visitMembers nodeDocument_consultSteps⟩, admissible⟩
  obtain ⟨codes, sites, isCode, isSites, _, found, each⟩ :=
    insertions_eq_occurrences isAccepted []
  refine ⟨accepted, isAccepted, by rw [isSpec]; rfl, codes, sites, isCode,
    isSites, found, ?_⟩
  intro site member
  obtain ⟨⟨lookups, isFound, _, same⟩, _⟩ := each site member
  exact ⟨lookups, isFound, same⟩

end Program

end Workflow
