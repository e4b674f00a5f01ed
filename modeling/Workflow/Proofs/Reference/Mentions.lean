import Workflow.Proofs.Sequencing
import Workflow.Reference.Template

/-!
# References that a value mentions

`Value.references` gives up on a value when one of its strings is no template.
`Value.mentions` lists what stands in the strings either way.  The two agree
wherever the first one answers, so whoever resolves the references of a
template resolves exactly those that occur in its text.
-/

namespace Workflow

namespace Value

mutual

/-- The references in the strings of a value, in document order. -/
def mentions : Value → List Reference
  | .string text => Template.references text
  | .array items => mentionsList items
  | .object members => mentionsMembers members
  | _ => []

def mentionsList : List Value → List Reference
  | [] => []
  | item :: rest => mentions item ++ mentionsList rest

def mentionsMembers : List (String × Value) → List Reference
  | [] => []
  | (_, value) :: rest => mentions value ++ mentionsMembers rest

end

end Value

namespace Template

theorem exactly?_eq_some_iff {text : String} {target : Reference} :
    exactly? text = some target ↔
      atoms text.toList = [.reference target] := by
  unfold exactly?
  split
  · rename_i other isAtom
    simp [isAtom]
  · rename_i notAtom
    constructor
    · intro found
      cases found
    · intro isAtom
      exact absurd isAtom (notAtom target)

private theorem filterMap_closeLiteral (reversed : List Char) :
    (closeLiteral reversed).filterMap Segment.reference? = [] := by
  unfold closeLiteral
  split
  · rfl
  · simp [Segment.reference?]

/-- Joining characters into literals loses no reference and keeps the order. -/
theorem filterMap_segmentsFrom (reversed : List Char) (atoms : List Atom) :
    (segmentsFrom reversed atoms).filterMap Segment.reference? =
      atoms.filterMap Atom.reference? := by
  induction atoms generalizing reversed with
  | nil => exact filterMap_closeLiteral reversed
  | cons atom rest induction =>
      cases atom with
      | char c =>
          simp [segmentsFrom, List.filterMap_cons, Atom.reference?, induction]
      | reference target =>
          simp [segmentsFrom, Atom.reference?,
            Segment.reference?, filterMap_closeLiteral, induction]

/-- The segments of a template are the pieces that its atoms join into. -/
theorem segments_eq_ok {text : String} {pieces : List Segment}
    (template : segments text = .ok pieces) :
    pieces = segmentsFrom [] (atoms text.toList) := by
  unfold segments at template
  simp only at template
  split at template
  · cases template
  · exact (Except.ok.inj template).symm

theorem templateReferences_eq_ok {text : String} {found : List Reference}
    (template : templateReferences text = .ok found) :
    found = references text := by
  obtain ⟨pieces, ofText, rfl⟩ := map_eq_ok_iff.mp template
  rw [segments_eq_ok ofText, filterMap_segmentsFrom]
  rfl

end Template

namespace Value

mutual

/-- What the templates of a value refer to is what its strings mention. -/
theorem references_eq_ok {value : Value} {found : List Reference}
    (templates : value.references = .ok found) : found = value.mentions := by
  cases value with
  | string text => exact Template.templateReferences_eq_ok templates
  | array items => exact referencesList_eq_ok templates
  | object members => exact referencesMembers_eq_ok templates
  | null => exact (Except.ok.inj templates).symm
  | bool value => exact (Except.ok.inj templates).symm
  | number value => exact (Except.ok.inj templates).symm

theorem referencesList_eq_ok {items : List Value} {found : List Reference}
    (templates : referencesList items = .ok found) :
    found = mentionsList items := by
  cases items with
  | nil => exact (Except.ok.inj templates).symm
  | cons item rest =>
      obtain ⟨first, ofItem, others⟩ := bind_eq_ok_iff.mp templates
      obtain ⟨later, ofRest, joined⟩ := bind_eq_ok_iff.mp others
      rw [← Except.ok.inj joined, references_eq_ok ofItem,
        referencesList_eq_ok ofRest]
      rfl

theorem referencesMembers_eq_ok {members : List (String × Value)}
    {found : List Reference}
    (templates : referencesMembers members = .ok found) :
    found = mentionsMembers members := by
  cases members with
  | nil => exact (Except.ok.inj templates).symm
  | cons member rest =>
      obtain ⟨first, ofValue, others⟩ := bind_eq_ok_iff.mp templates
      obtain ⟨later, ofRest, joined⟩ := bind_eq_ok_iff.mp others
      rw [← Except.ok.inj joined, references_eq_ok ofValue,
        referencesMembers_eq_ok ofRest]
      rfl

end

end Value

end Workflow
