import Workflow.Analysis.Scope

/-!
# Scopes and findings

Which names a scope holds where several ways meet, one equivalence for each
of its sets: the analysis joins whole scopes, not only what is new in them, and
the equivalences say what that comes to for a single name.  Then what a report
keeps of the findings: every error, and of the warnings those that do not read
like an earlier one.
-/

namespace Workflow.Scope

variable {scope arm whenTrue otherwise : Scope} {branches : List Scope}
  {name : String}

@[simp] theorem mem_guaranteed_bind {target : String} :
    name ∈ (scope.bind target).guaranteed ↔
      name = target ∨ name ∈ scope.guaranteed :=
  NameSet.mem_insert

@[simp] theorem mem_cancellable_bind {target : String} :
    name ∈ (scope.bind target).cancellable ↔
      name ∈ scope.cancellable ∧ name ≠ target :=
  NameSet.mem_erase

@[simp] theorem mem_guaranteed_joinArms :
    name ∈ (whenTrue.joinArms otherwise).guaranteed ↔
      name ∈ whenTrue.guaranteed ∧ name ∈ otherwise.guaranteed :=
  NameSet.mem_inter

@[simp] theorem mem_cancellable_joinArms :
    name ∈ (whenTrue.joinArms otherwise).cancellable ↔
      (name ∈ whenTrue.cancellable ∨ name ∈ otherwise.cancellable) ∧
        name ∈ whenTrue.guaranteed ∧ name ∈ otherwise.guaranteed := by
  simp [joinArms]

@[simp] theorem guaranteed_foldl_skippable :
    (branches.foldl Scope.skippable scope).guaranteed = scope.guaranteed := by
  induction branches generalizing scope with
  | nil => rfl
  | cons branch rest induction => exact induction

@[simp] theorem cancellable_foldl_skippable :
    (branches.foldl Scope.skippable scope).cancellable =
      scope.cancellable := by
  induction branches generalizing scope with
  | nil => rfl
  | cons branch rest induction => exact induction

@[simp] theorem mem_guaranteed_unionAll :
    name ∈ (scope.unionAll branches).guaranteed ↔
      name ∈ scope.guaranteed ∨
      ∃ branch ∈ branches, name ∈ branch.guaranteed := by
  unfold unionAll
  induction branches generalizing scope with
  | nil => simp
  | cons branch rest induction =>
      simp only [List.foldl_cons, induction, NameSet.mem_union, List.mem_cons,
        exists_eq_or_imp, or_assoc]

@[simp] theorem mem_cancellable_unionAll :
    name ∈ (scope.unionAll branches).cancellable ↔
      name ∈ scope.cancellable ∨
      ∃ branch ∈ branches, name ∈ branch.cancellable := by
  unfold unionAll
  induction branches generalizing scope with
  | nil => simp
  | cons branch rest induction =>
      simp only [List.foldl_cons, induction, NameSet.mem_union, List.mem_cons,
        exists_eq_or_imp, or_assoc]

@[simp] theorem guaranteed_joinFanout {join : JoinPolicy} :
    (scope.joinFanout branches join).guaranteed =
      (scope.unionAll branches).guaranteed := by
  cases join <;> rfl

theorem mem_contested :
    name ∈ scope.contested (scope.unionAll branches) branches ↔
      name ∉ scope.guaranteed ∧
      (∃ branch ∈ branches, name ∈ branch.guaranteed) ∧
        ∃ branch ∈ branches, name ∉ branch.guaranteed := by
  simp only [contested, NameSet.mem_filter, mem_guaranteed_unionAll,
    Bool.and_eq_true, decide_eq_true_eq, Bool.not_eq_true', List.all_eq_false]
  constructor
  · rintro ⟨bound, fresh, missing⟩
    exact ⟨fresh, bound.resolve_left fresh, by simpa using missing⟩
  · rintro ⟨fresh, bound, missing⟩
    exact ⟨.inr bound, fresh, by simpa using missing⟩

/-- Behind a race a name may be missing for two reasons: it could be missing in
front of the end of some branch, or not all branches bind it. -/
theorem mem_cancellable_joinFanout_firstToFinish :
    name ∈ (scope.joinFanout branches .firstToFinish).cancellable ↔
      (name ∈ scope.cancellable ∨
        ∃ branch ∈ branches, name ∈ branch.cancellable) ∨
        name ∉ scope.guaranteed ∧
        (∃ branch ∈ branches, name ∈ branch.guaranteed) ∧
          ∃ branch ∈ branches, name ∉ branch.guaranteed := by
  simp only [joinFanout, NameSet.mem_union, mem_cancellable_unionAll,
    mem_contested]

theorem of_unbound_mem_check
    {path : Path} {reference : Reference} {error : ScopeError}
    (member : .unbound error ∈ scope.check path reference) :
    error.path = path ∧ error.reference = reference := by
  unfold check at member
  split at member
  · obtain ⟨rfl⟩ := List.mem_singleton.mp member
    exact ⟨rfl, rfl⟩
  · split at member
    · cases List.mem_singleton.mp member
    · cases member

theorem of_contested_mem_check {path : Path} {reference : Reference}
    {warning : ScopeWarning}
    (member : .contested warning ∈ scope.check path reference) :
    warning = ⟨path, reference.root⟩ ∧ reference.root ∈ scope.cancellable := by
  unfold check at member
  split at member
  · cases List.mem_singleton.mp member
  · split at member
    · rename_i lost
      cases List.mem_singleton.mp member
      exact ⟨rfl, lost⟩
    · cases member

end Workflow.Scope

namespace Workflow.ScopeReport

theorem mem_errorsOf {findings : List ScopeFinding} {error : ScopeError} :
    error ∈ errorsOf findings ↔ .unbound error ∈ findings := by
  simp only [errorsOf, List.mem_filterMap]
  constructor
  · rintro ⟨finding, member, same⟩
    cases finding with
    | unbound found => exact Option.some.inj same ▸ member
    | contested warning => cases same
  · intro member
    exact ⟨.unbound error, member, rfl⟩

/-- A warning joins those already found unless one of them reads the same. -/
def addWarning (found : List ScopeWarning) : ScopeFinding → List ScopeWarning
  | .unbound _ => found
  | .contested warning =>
      if found.any (sameWarning warning) then found else found ++ [warning]

theorem warningsOf_eq_foldl (findings : List ScopeFinding) :
    warningsOf findings = findings.foldl addWarning [] :=
  rfl

theorem sameWarning_self (warning : ScopeWarning) :
    sameWarning warning warning = true := by
  simp [sameWarning]

private theorem subset_addWarning
    (found : List ScopeWarning) (finding : ScopeFinding) :
    ∀ warning ∈ found, warning ∈ addWarning found finding := by
  intro warning member
  cases finding with
  | unbound error => exact member
  | contested other =>
      simp only [addWarning]
      split
      · exact member
      · exact List.mem_append_left _ member

private theorem subset_foldl_addWarning (found : List ScopeWarning)
    (findings : List ScopeFinding) :
    ∀ warning ∈ found, warning ∈ findings.foldl addWarning found := by
  induction findings generalizing found with
  | nil => exact fun warning member => member
  | cons finding rest induction =>
      intro warning member
      exact induction _ warning
        (subset_addWarning found finding warning member)

private theorem exists_same_addWarning
    (found : List ScopeWarning) (warning : ScopeWarning) :
    ∃ kept ∈ addWarning found (.contested warning),
      sameWarning warning kept = true := by
  simp only [addWarning]
  split
  · rename_i already
    exact List.any_eq_true.mp already
  · exact ⟨warning, by simp, sameWarning_self warning⟩

/-- Every contested name is warned of, if not in its own words then in those of
an earlier warning that reads the same. -/
theorem exists_same_warningsOf
    {findings : List ScopeFinding} {warning : ScopeWarning}
    (member : .contested warning ∈ findings) :
    ∃ kept ∈ warningsOf findings, sameWarning warning kept = true := by
  rw [warningsOf_eq_foldl]
  generalize ([] : List ScopeWarning) = found
  induction findings generalizing found with
  | nil => cases member
  | cons finding rest induction =>
      rcases List.mem_cons.mp member with here | later
      · subst here
        obtain ⟨kept, among, same⟩ := exists_same_addWarning found warning
        exact ⟨kept, subset_foldl_addWarning _ rest kept among, same⟩
      · exact induction later _

theorem contested_of_mem_foldl_addWarning {found : List ScopeWarning}
    {findings : List ScopeFinding} {warning : ScopeWarning}
    (member : warning ∈ findings.foldl addWarning found) :
    warning ∈ found ∨ .contested warning ∈ findings := by
  induction findings generalizing found with
  | nil => exact .inl member
  | cons finding rest induction =>
      rcases induction member with added | later
      · cases finding with
        | unbound error => exact .inl added
        | contested other =>
            simp only [addWarning] at added
            split at added
            · exact .inl added
            · rcases List.mem_append.mp added with already | isNew
              · exact .inl already
              · obtain rfl := List.mem_singleton.mp isNew
                exact .inr List.mem_cons_self
      · exact .inr (List.mem_cons_of_mem _ later)

/-- Only contested names are warned of. -/
theorem contested_of_mem_warningsOf
    {findings : List ScopeFinding} {warning : ScopeWarning}
    (member : warning ∈ warningsOf findings) :
    .contested warning ∈ findings :=
  (contested_of_mem_foldl_addWarning member).resolve_left List.not_mem_nil

end Workflow.ScopeReport
