import Mathlib.Data.List.Nodup
import Mathlib.Data.List.Perm.Basic
import Workflow.Value.Basic

/-!
# Looking up members

Where no key occurs twice the members of an object are what looking up their
keys gives, and their order does not matter for that.
-/

namespace Workflow.Members

variable {members : Members} {key : String} {value : Value}

theorem get?_cons_self (key : String) (value : Value) (members : Members) :
    get? ((key, value) :: members) key = some value := by
  simp [get?]

theorem get?_cons_of_ne
    {other : String} (different : other ≠ key) (value : Value)
    (members : Members) :
    get? ((key, value) :: members) other = get? members other := by
  rw [get?, List.lookup_cons, beq_false_of_ne different]
  rfl

theorem get?_eq_none : members.get? key = none ↔ key ∉ members.keys := by
  simp only [get?, keys, List.lookup_eq_none_iff, List.mem_map, not_exists,
    not_and, bne_iff_ne]
  constructor
  · rintro different entry member rfl
    exact different entry member rfl
  · rintro absent entry member rfl
    exact absent entry member rfl

theorem exists_get? (member : key ∈ members.keys) :
    ∃ value, members.get? key = some value := by
  cases given : members.get? key with
  | none => exact absurd member (get?_eq_none.mp given)
  | some value => exact ⟨value, rfl⟩

theorem mem_of_get? (given : members.get? key = some value) :
    (key, value) ∈ members := by
  obtain ⟨before, behind, rfl, _⟩ := List.lookup_eq_some_iff.mp given
  simp

theorem get?_eq_some (distinct : members.keys.Nodup) :
    members.get? key = some value ↔ (key, value) ∈ members := by
  constructor
  · exact mem_of_get?
  · intro member
    obtain ⟨found, given⟩ :=
      exists_get? (List.mem_map_of_mem (f := Prod.fst) member)
    have same :=
      List.inj_on_of_nodup_map distinct (mem_of_get? given) member rfl
    rw [given]
    exact congrArg some (congrArg Prod.snd same)

theorem get?_eq_of_perm
    {left right : Members} (distinct : left.keys.Nodup)
    (permuted : left.Perm right) (key : String) :
    left.get? key = right.get? key := by
  have alsoDistinct : right.keys.Nodup :=
    (permuted.map Prod.fst).nodup_iff.mp distinct
  apply Option.ext
  intro value
  rw [get?_eq_some distinct, get?_eq_some alsoDistinct, permuted.mem_iff]

end Workflow.Members
