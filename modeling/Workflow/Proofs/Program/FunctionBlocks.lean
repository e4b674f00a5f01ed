import Workflow.Proofs.Program.NameResolution

/-!
# Functions found in a program

The function of a tool and the entry point are found in the text of a program
by their headers. A header has no double in front of it: the tools of a program
are defined once each, and no tool function looks like the entry point.
-/

namespace Workflow.Program

open Code SelfCheck

mutual

/-- Whether there is no blank line in code. -/
def Code.isUnbroken : Code → Bool
  | .line _ => true
  | .blank => false
  | .block _ body => areUnbroken body

def Code.areUnbroken : List Code → Bool
  | [] => true
  | code :: rest => isUnbroken code && areUnbroken rest

end

theorem areUnbroken_iff {codes : List Code} :
    areUnbroken codes = true ↔ ∀ code ∈ codes, isUnbroken code = true := by
  induction codes with
  | nil => simp [areUnbroken]
  | cons code rest induction => simp [areUnbroken, induction]

mutual

theorem Code.Regular.neat {code : Code} (regular : code.Regular)
    (unbroken : code.isUnbroken = true) : code.Neat := by
  match code with
  | .line _ => exact regular.1.neat
  | .blank => cases unbroken
  | .block _ body =>
      refine ⟨regular.1.neat, ?_, RegularAll.neat regular.2.2 unbroken⟩
      intro empty
      rw [empty] at regular
      cases regular.2.1

theorem Code.RegularAll.neat {codes : List Code} (regular : RegularAll codes)
    (unbroken : areUnbroken codes = true) : NeatAll codes := by
  match codes with
  | [] => trivial
  | _ :: _ =>
      obtain ⟨first, later⟩ := Bool.and_eq_true_iff.mp unbroken
      exact ⟨Regular.neat regular.1 first, RegularAll.neat regular.2 later⟩

end

theorem neat_toolFunction
    (library : Library) (credentials : String → NameSet) {tool : String}
    (identifier : isIdentifier tool = true) :
    (toolFunction library credentials tool).Neat := by
  apply (regular_toolFunction library credentials identifier).neat
  rw [toolFunction, isUnbroken]
  cases library.get? tool with
  | some implementation => rfl
  | none =>
      apply areUnbroken_iff.mpr
      intro code member
      simp only [placeholderBody, List.cons_append, List.mem_cons,
        List.mem_append, List.mem_map, List.not_mem_nil, or_false] at member
      rcases member with rfl | ⟨param, _, rfl⟩ | rfl
      · rfl
      · rfl
      · rfl

theorem neat_entryPoint (spec : Spec) : (entryPoint spec).Neat := by
  apply (regular_entryPoint spec).neat
  rw [entryPoint, isUnbroken]
  apply areUnbroken_iff.mpr
  simp only [List.forall_mem_append]
  refine ⟨⟨?_, ?_⟩, ?_⟩
  · simp [isUnbroken]
  · rw [List.forall_mem_map]
    intro input _
    rfl
  · simp [isUnbroken, areUnbroken]

theorem separated_append_gap {codes : List Code} (notEmpty : codes ≠ []) :
    separated codes ++ gap = codes.flatMap fun code => code :: gap := by
  fun_induction separated codes with
  | case1 => exact absurd rfl notEmpty
  | case2 only => rfl
  | case3 first rest several induction =>
      rw [List.flatMap_cons, ← induction several]
      rfl

/-- The part of a program between the support code and the function of the
tree. -/
theorem tools_eq_flatMap (library : Library) (spec : Spec) :
    (if spec.toolNames.isEmpty then []
      else toolFunctions library spec.workflow.credentials spec.toolNames ++
        gap) =
      spec.toolNames.names.flatMap fun tool =>
        toolFunction library spec.workflow.credentials tool :: gap := by
  split
  · rename_i empty
    have none : spec.toolNames.names = [] := by
      simpa [NameSet.isEmpty] using empty
    rw [none]
    rfl
  · rename_i some
    have notEmpty : spec.toolNames.names ≠ [] := by
      simpa [NameSet.isEmpty] using some
    rw [toolFunctions, separated_append_gap (by simpa using notEmpty),
      List.flatMap_map]

theorem exists_wholeCode_eq (library : Library) {spec : Spec} {tool : String}
    (member : tool ∈ spec.toolNames) :
    ∃ front back, wholeCode library spec =
      front ++ toolFunction library spec.workflow.credentials tool :: .blank ::
        back := by
  obtain ⟨start, ofStart⟩ : ∃ start, beforeTree library spec =
      start ++ spec.toolNames.names.flatMap fun tool =>
        toolFunction library spec.workflow.credentials tool :: gap :=
    ⟨_, congrArg (_ ++ ·) (tools_eq_flatMap library spec)⟩
  obtain ⟨before, after, names⟩ :=
    List.append_of_mem (NameSet.mem_def.mp member)
  rw [wholeCode, ofStart, names, List.flatMap_append, List.flatMap_cons,
    ← List.append_assoc, List.append_assoc]
  exact ⟨_, .blank :: (_ ++ _), rfl⟩

theorem ownHeader_entry : OwnHeader "def run_workflow(**inputs):" where
  first := by simp
  noImport := by decide +kernel
  noSupport := by decide +kernel
  noTool tool := by
    rw [Ne, ← String.toList_inj]
    simp

section

variable (library : Library) {members : Members} {spec : Spec}
  (document : Document.SpecMembers members spec)

include document

theorem blockLines_toolFunction
    {tool : String} (member : tool ∈ spec.toolNames) :
    blockLines ("def tool_" ++ tool ++ "(**kwargs):").toList
        (Text.lines (renderAll 0 (wholeCode library spec)).toList) =
      lines 0 (toolFunction library spec.workflow.credentials tool) := by
  obtain ⟨_, _, tree⟩ := document.workflowAt
  have identifier := isIdentifier_of_mem_toolNames tree.lawful member
  have named := toolOf?_header identifier
  obtain ⟨front, back, whole⟩ := exists_wholeCode_eq library member
  -- A second header for the tool would define it twice.
  have others : ∀ code ∈ front,
      opener code ≠ ("def tool_" ++ tool ++ "(**kwargs):").toList := by
    intro code isBefore same
    have first : tool ∈ toolsAt front := by
      refine List.mem_filterMap.mpr
        ⟨opener code, List.mem_map_of_mem isBefore, ?_⟩
      rw [same, named]
    have once : (toolsAt (wholeCode library spec)).Nodup := by
      rw [toolsAt_wholeCode library tree.lawful]
      exact spec.toolNames.increasing.imp String.ne_of_lt
    rw [whole, toolsAt_append, List.nodup_append] at once
    have second : tool ∈ toolsAt
        (toolFunction library spec.workflow.credentials tool :: .blank ::
          back) := by
      refine List.mem_filterMap.mpr ⟨_, List.mem_cons_self, ?_⟩
      exact named
    exact once.2.2 tool first tool second rfl
  rw [lines_wholeCode library document, whole]
  exact blockLines_linesAll back others
    (neat_toolFunction library _ identifier)

theorem blockLines_entryPoint :
    blockLines "def run_workflow(**inputs):".toList
        (Text.lines (renderAll 0 (wholeCode library spec)).toList) =
      lines 0 (entryPoint spec) := by
  have own := ownHeader_entry
  have shape : wholeCode library spec =
      (beforeTree library spec ++ ([treeBlock spec] ++ gap)) ++
        entryPoint spec :: .blank :: .blank :: [usage spec] := by
    simp [wholeCode, behindTree, gap]
  have tree : ∀ code ∈ [treeBlock spec],
      opener code ≠ "def run_workflow(**inputs):".toList := by
    rw [List.forall_mem_singleton, treeBlock, opener]
    decide +kernel
  have others : ∀ code ∈ beforeTree library spec ++ ([treeBlock spec] ++ gap),
      opener code ≠ "def run_workflow(**inputs):".toList := by
    rw [List.forall_mem_append, List.forall_mem_append]
    exact ⟨own.opener_beforeTree library spec, tree, own.opener_gap⟩
  rw [lines_wholeCode library document, shape]
  exact blockLines_linesAll _ others (neat_entryPoint spec)

end

end Workflow.Program
