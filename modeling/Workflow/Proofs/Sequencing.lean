import Mathlib.Control.Monad.Basic

/-!
# Computations that may fail

A computation in steps has a result exactly when each of its steps has one.
Proofs about readers and scanners take such computations apart with the
equivalences below and never unfold the monad.
-/

namespace Workflow

variable {ε α β : Type}

@[simp] theorem ok_bind (value : α) (next : α → Except ε β) :
    ((.ok value : Except ε α) >>= next) = next value := rfl

@[simp] theorem error_bind (problem : ε) (next : α → Except ε β) :
    ((.error problem : Except ε α) >>= next) = .error problem := rfl

@[simp] theorem throw_eq_error (problem : ε) :
    (throw problem : Except ε α) = .error problem := rfl

theorem bind_eq_ok_iff
    {first : Except ε α} {next : α → Except ε β} {result : β} :
    (first >>= next) = .ok result ↔
      ∃ middle, first = .ok middle ∧ next middle = .ok result := by
  cases first with
  | error problem => simp
  | ok middle => simp

theorem map_eq_ok_iff {first : Except ε α} {function : α → β} {result : β} :
    first.map function = .ok result ↔
      ∃ middle, first = .ok middle ∧ function middle = result := by
  cases first with
  | error problem => simp [Except.map]
  | ok middle => simp [Except.map]

end Workflow
