import Workflow.Report.Issue

/-!
# Results with issues

Checking a document goes on after a problem, so that one pass reports all of
them.  A checked result is a value together with the issues found on the way to
it, in order.
-/

namespace Workflow

/-- A value, and the issues found on the way to it. -/
structure Checked (α : Type) where
  value : α
  issues : List Issue

namespace Checked

instance : Monad Checked where
  pure value := ⟨value, []⟩
  bind first next :=
    let second := next first.value
    ⟨second.value, first.issues ++ second.issues⟩

def note (issue : Issue) : Checked Unit :=
  ⟨(), [issue]⟩

@[simp] theorem value_pure {α : Type} (value : α) :
    (pure value : Checked α).value = value :=
  rfl

@[simp] theorem issues_pure {α : Type} (value : α) :
    (pure value : Checked α).issues = [] :=
  rfl

@[simp] theorem value_bind
    {α β : Type} (first : Checked α) (next : α → Checked β) :
    (first >>= next).value = (next first.value).value :=
  rfl

@[simp] theorem issues_bind
    {α β : Type} (first : Checked α) (next : α → Checked β) :
    (first >>= next).issues = first.issues ++ (next first.value).issues :=
  rfl

end Checked

end Workflow
