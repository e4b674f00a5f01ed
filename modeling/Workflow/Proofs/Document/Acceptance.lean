import Workflow.Analysis.Acceptance
import Workflow.Proofs.Document.SpecReading

/-!
# What is accepted

A document is accepted exactly when it is the document of a specification that
keeps within the limits and reads no unbound name.
-/

namespace Workflow

theorem Report.isValid_ofIssues {issues : List Issue} :
    (Report.ofIssues issues).isValid = true ↔
      ∀ issue ∈ issues, issue.severity ≠ .error := by
  simp [Report.isValid, Report.ofIssues]

/-- The specification as a whole has no errors: it keeps within the limits, and
all references are bound. -/
def Spec.Admissible (spec : Spec) (limits : Limits) : Prop :=
  ∀ issue ∈ spec.issues limits, issue.severity ≠ .error

namespace Document

theorem inspect_gives {limits : Limits} {document : Value} {spec : Spec} :
    (inspect limits document).Gives (some spec) ↔
      SpecDocument document spec ∧ spec.Admissible limits := by
  have read :
      (readSpec document).Gives (some spec) ↔ SpecDocument document spec := by
    simp [gives_readSpec]
  rw [← read]
  cases found : (readSpec document).value with
  | none =>
      have same : inspect limits document = readSpec document := by
        simp only [inspect, found]
      rw [same]
      constructor
      · intro gives
        simp [gives.value] at found
      · rintro ⟨gives, _⟩
        simp [gives.value] at found
  | some other =>
      have extended : inspect limits document =
          ⟨some other, (readSpec document).issues ++ other.issues limits⟩ := by
        simp only [inspect, found]
      rw [extended]
      constructor
      · rintro ⟨same, clean⟩
        cases same
        refine ⟨⟨found, ?_⟩, ?_⟩
        · intro issue member
          exact clean issue (List.mem_append_left _ member)
        · intro issue member
          exact clean issue (List.mem_append_right _ member)
      · rintro ⟨gives, admissible⟩
        obtain rfl : spec = other := by simpa [gives.value] using found
        refine ⟨rfl, ?_⟩
        intro issue member
        rcases List.mem_append.mp member with inReading | inSpec
        · exact gives.clean issue inReading
        · exact admissible issue inSpec

/-- The specification of an accepted document, and that there is one. -/
theorem exists_accept_iff {limits : Limits} {document : Value} {spec : Spec} :
    (∃ accepted,
      accept limits document = .ok accepted ∧ accepted.spec = spec) ↔
      SpecDocument document spec ∧ spec.Admissible limits := by
  rw [← inspect_gives]
  constructor
  · rintro ⟨accepted, isAccepted, rfl⟩
    simp only [accept] at isAccepted
    split at isAccepted
    · rename_i spec found
      split at isAccepted
      · rename_i valid
        cases isAccepted
        exact ⟨found, Report.isValid_ofIssues.mp valid⟩
      · cases isAccepted
    · cases isAccepted
  · intro gives
    have valid := Report.isValid_ofIssues.mpr gives.clean
    refine ⟨⟨spec,
        (Report.ofIssues (inspect limits document).issues).warnings⟩, ?_, rfl⟩
    simp only [accept, gives.value, valid, if_true]

theorem specDocument_of_accept
    {limits : Limits} {document : Value} {accepted : Accepted}
    (isAccepted : accept limits document = .ok accepted) :
    SpecDocument document accepted.spec ∧ accepted.spec.Admissible limits :=
  exists_accept_iff.mp ⟨accepted, isAccepted, rfl⟩

end Document

end Workflow
