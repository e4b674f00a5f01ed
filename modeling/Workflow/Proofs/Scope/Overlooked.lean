import Workflow.Proofs.Document.Grammar
import Workflow.Proofs.Reference.Mentions
import Workflow.Proofs.Scope.Sites

/-!
# References that the analysis overlooks

A parameter value is searched for references as a whole, and the search gives
up at the first string that is no template.  So one malformed string hides
every reference of its value, those in other strings too, while a condition is
searched reference by reference.  An unbound reference is reported exactly when
nothing in its value hides it.
-/

namespace Workflow

/-- A reference that is written somewhere in a tree, and the parameter value
that it stands in unless it stands in a condition. -/
structure Mention where
  occurrence : Occurrence
  value? : Option Value

namespace Mention

/-- A malformed string stands in the same parameter value. -/
def Hidden (mention : Mention) : Prop :=
  ∃ value ∈ mention.value?, ∃ text ∈ value.texts, ¬ IsTemplate text.toList

def ofParams (path : Path) (before : List Node) (params : Members) :
    List Mention :=
  params.flatMap fun param =>
    param.2.mentions.map fun reference =>
      ⟨⟨.field path param.1, reference, before⟩, some param.2⟩

def ofConditions (occurrences : List Occurrence) : List Mention :=
  occurrences.map fun occurrence => ⟨occurrence, none⟩

theorem not_hidden_ofCondition (occurrence : Occurrence) :
    ¬ Hidden ⟨occurrence, none⟩ := by
  rintro ⟨value, isValue, _⟩
  cases isValue

theorem not_hidden_iff (occurrence : Occurrence) (value : Value) :
    ¬ Hidden ⟨occurrence, some value⟩ ↔
      ∃ references, value.references = .ok references := by
  rw [Value.references_ok_iff]
  simp [Hidden]

end Mention

/-- The references that a node holds itself, as they are written. -/
def Site.mentions (site : Site) : List Mention :=
  match site.node with
  | .call invocation =>
      Mention.ofParams (.field site.path "params") site.before
        invocation.params
  | .branch condition _ _ =>
      Mention.ofConditions
        (Occurrence.ofCondition (.field site.path "condition") site.before
          condition)
  | .dispatch _ rules _ =>
      Mention.ofConditions (Occurrence.ofRules site.path site.before 0 rules)
  | _ => []

/-- A reference is looked at when it is written and not hidden. -/
def Shows (mentions : List Mention) (occurrences : List Occurrence) : Prop :=
  ∀ occurrence, occurrence ∈ occurrences ↔
    ∃ mention ∈ mentions, ¬ mention.Hidden ∧ mention.occurrence = occurrence

theorem shows_ofConditions (occurrences : List Occurrence) :
    Shows (Mention.ofConditions occurrences) occurrences := by
  intro occurrence
  constructor
  · intro member
    exact ⟨⟨occurrence, none⟩, List.mem_map_of_mem member,
      Mention.not_hidden_ofCondition occurrence, rfl⟩
  · rintro ⟨mention, written, _, rfl⟩
    obtain ⟨occurrence, member, rfl⟩ := List.mem_map.mp written
    exact member

theorem shows_ofParams (path : Path) (before : List Node) (params : Members) :
    Shows (Mention.ofParams path before params)
      (Occurrence.ofParams path before params) := by
  intro occurrence
  simp only [Mention.ofParams, Occurrence.ofParams, List.mem_flatMap]
  constructor
  · rintro ⟨param, isParam, member⟩
    cases found : param.2.references with
    | error malformed =>
        rw [found] at member
        cases member
    | ok references =>
        rw [found] at member
        obtain ⟨reference, isReference, rfl⟩ := List.mem_map.mp member
        rw [Value.references_eq_ok found] at isReference
        refine ⟨⟨⟨.field path param.1, reference, before⟩, some param.2⟩, ?_,
          ?_, rfl⟩
        · exact ⟨param, isParam, List.mem_map_of_mem isReference⟩
        · exact (Mention.not_hidden_iff _ param.2).mpr ⟨references, found⟩
  · rintro ⟨mention, ⟨param, isParam, written⟩, visible, rfl⟩
    obtain ⟨reference, isReference, rfl⟩ := List.mem_map.mp written
    obtain ⟨references, found⟩ := (Mention.not_hidden_iff _ param.2).mp visible
    rw [← Value.references_eq_ok found] at isReference
    refine ⟨param, isParam, ?_⟩
    rw [found]
    exact List.mem_map_of_mem isReference

theorem Site.shows_occurrences (site : Site) :
    Shows site.mentions site.occurrences := by
  unfold Site.mentions Site.occurrences
  cases site.node with
  | call invocation => exact shows_ofParams _ _ invocation.params
  | branch condition whenTrue otherwise => exact shows_ofConditions _
  | dispatch routes rules fallback => exact shows_ofConditions _
  | sequence steps => simp [Shows]
  | fanout branches join => simp [Shows]

namespace Node

theorem mem_errors_analyze
    {node : Node} {incoming : NameSet} {path : Path} {error : ScopeError} :
    error ∈ (node.analyze incoming path).errors ↔
      ∃ occurrence ∈ node.occurrences path [],
        occurrence.error? incoming = some error := by
  have found := node.findings_flow (Scope.ofNames incoming) path []
  rw [Scope.behind, List.foldl_nil] at found
  simp only [analyze, ScopeReport.mem_errorsOf, found, List.mem_flatMap]
  apply exists_congr
  intro occurrence
  apply and_congr_right
  intro _
  rw [← ScopeReport.mem_errorsOf, occurrence.errorsOf_findingsAt incoming,
    Option.mem_toList]

/-- The errors are those of the references that are written in the tree,
conditions and parameters alike, and that no malformed string of the same
parameter value hides. -/
theorem mem_errors_analyze_iff_not_hidden
    (node : Node) (incoming : NameSet) (path : Path) (error : ScopeError) :
    error ∈ (node.analyze incoming path).errors ↔
      ∃ site ∈ node.sites path [], ∃ mention ∈ site.mentions,
        ¬ mention.Hidden ∧
        mention.occurrence.error? incoming = some error := by
  rw [mem_errors_analyze, occurrences_eq_flatMap_sites]
  constructor
  · rintro ⟨occurrence, member, isError⟩
    obtain ⟨site, isSite, inSite⟩ := List.mem_flatMap.mp member
    obtain ⟨mention, written, visible, rfl⟩ :=
      (site.shows_occurrences occurrence).mp inSite
    exact ⟨site, isSite, mention, written, visible, isError⟩
  · rintro ⟨site, isSite, mention, written, visible, isError⟩
    have inSite :=
      (site.shows_occurrences mention.occurrence).mpr
        ⟨mention, written, visible, rfl⟩
    exact ⟨mention.occurrence, List.mem_flatMap.mpr ⟨site, isSite, inSite⟩,
      isError⟩

end Node

end Workflow
