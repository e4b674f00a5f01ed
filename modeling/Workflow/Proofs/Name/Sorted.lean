import Mathlib.Data.List.Sort
import Workflow.Name.Sorted

/-!
# Sorting entries by name

Sorting keeps the names, invents no entry, leaves a list alone that is sorted
already, and does not depend on the order of entries with different names.
-/

namespace Workflow.Sorted

variable {α : Type}

/-- The names increase. -/
abbrev Increasing (entries : List (String × α)) : Prop :=
  entries.Pairwise fun left right => left.1 < right.1

theorem mem_insert {name : String} {content : α} {entries : List (String × α)}
    {entry : String × α} (member : entry ∈ insert name content entries) :
    entry = (name, content) ∨ entry ∈ entries := by
  induction entries with
  | nil => exact .inl (List.mem_singleton.mp member)
  | cons head rest induction =>
      obtain ⟨other, old⟩ := head
      simp only [insert] at member
      split at member
      · exact List.mem_cons.mp member
      · split at member
        · rcases List.mem_cons.mp member with here | later
          · exact .inl here
          · exact .inr (List.mem_cons_of_mem _ later)
        · rcases List.mem_cons.mp member with here | later
          · exact .inr (here ▸ List.mem_cons_self)
          · rcases induction later with inserted | kept
            · exact .inl inserted
            · exact .inr (List.mem_cons_of_mem _ kept)

theorem mem_names_insert
    {name candidate : String} {content : α} {entries : List (String × α)} :
    candidate ∈ (insert name content entries).map Prod.fst ↔
      candidate = name ∨ candidate ∈ entries.map Prod.fst := by
  induction entries with
  | nil => simp [insert]
  | cons head rest induction =>
      obtain ⟨other, old⟩ := head
      simp only [insert]
      split
      · simp
      · split
        · rename_i same
          subst same
          simp
        · simp only [List.map_cons, List.mem_cons, induction]
          grind

theorem increasing_insert
    {name : String} {content : α} {entries : List (String × α)}
    (increasing : Increasing entries) :
    Increasing (insert name content entries) := by
  induction entries with
  | nil => exact List.pairwise_singleton _ _
  | cons head rest induction =>
      obtain ⟨other, old⟩ := head
      obtain ⟨below, restIncreasing⟩ := List.pairwise_cons.mp increasing
      simp only [insert]
      split
      · rename_i before
        refine List.pairwise_cons.mpr ⟨?_, increasing⟩
        intro entry member
        rcases List.mem_cons.mp member with rfl | later
        · exact before
        · exact String.lt_trans before (below entry later)
      · rename_i notBefore
        split
        · rename_i same
          subst same
          exact List.pairwise_cons.mpr ⟨below, restIncreasing⟩
        · rename_i different
          have above : other < name := by
            refine Decidable.byContradiction fun notAbove => different ?_
            exact String.le_antisymm (String.not_lt.mp notAbove)
              (String.not_lt.mp notBefore)
          refine List.pairwise_cons.mpr ⟨?_, induction restIncreasing⟩
          intro entry member
          rcases mem_insert member with rfl | kept
          · exact above
          · exact below entry kept

theorem insert_of_above
    {name : String} (content : α) {entries : List (String × α)}
    (above : ∀ entry ∈ entries, entry.1 < name) :
    insert name content entries = entries ++ [(name, content)] := by
  induction entries with
  | nil => rfl
  | cons head rest induction =>
      obtain ⟨other, old⟩ := head
      obtain ⟨here, others⟩ := List.forall_mem_cons.mp above
      have notBefore : ¬name < other := String.lt_asymm here
      have different : name ≠ other := by
        rintro rfl
        exact String.lt_irrefl _ here
      simp [insert, notBefore, different, induction others]

section Fold

variable {sorted entries : List (String × α)}

/-- Sorting entries into a list that is sorted already. -/
abbrev insertAll (sorted entries : List (String × α)) : List (String × α) :=
  entries.foldl (fun sorted entry => insert entry.1 entry.2 sorted) sorted

theorem increasing_insertAll (increasing : Increasing sorted) :
    Increasing (insertAll sorted entries) := by
  induction entries generalizing sorted with
  | nil => exact increasing
  | cons entry entries induction =>
      exact induction (increasing_insert increasing)

theorem mem_insertAll
    {entry : String × α} (member : entry ∈ insertAll sorted entries) :
    entry ∈ sorted ∨ entry ∈ entries := by
  induction entries generalizing sorted with
  | nil => exact .inl member
  | cons head entries induction =>
      rcases induction member with inserted | later
      · rcases mem_insert inserted with here | kept
        · exact .inr (here ▸ List.mem_cons_self)
        · exact .inl kept
      · exact .inr (List.mem_cons_of_mem head later)

theorem mem_names_insertAll {name : String} :
    name ∈ (insertAll sorted entries).map Prod.fst ↔
      name ∈ sorted.map Prod.fst ∨ name ∈ entries.map Prod.fst := by
  induction entries generalizing sorted with
  | nil => simp
  | cons head entries induction =>
      simp only [List.foldl_cons, induction, mem_names_insert, List.map_cons,
        List.mem_cons]
      grind

theorem insertAll_of_increasing (increasing : Increasing (sorted ++ entries)) :
    insertAll sorted entries = sorted ++ entries := by
  induction entries generalizing sorted with
  | nil => simp
  | cons head entries induction =>
      have above : ∀ entry ∈ sorted, entry.1 < head.1 := by
        intro entry member
        exact (List.pairwise_append.mp increasing).2.2 entry member head
          List.mem_cons_self
      have appended :
          sorted ++ [head] ++ entries = sorted ++ head :: entries := by simp
      rw [← appended] at increasing ⊢
      rw [← induction increasing, ← insert_of_above head.2 above]
      rfl

end Fold

theorem increasing_ofList (entries : List (String × α)) :
    Increasing (ofList entries) :=
  increasing_insertAll .nil

theorem mem_of_mem_ofList {entries : List (String × α)} {entry : String × α}
    (member : entry ∈ ofList entries) : entry ∈ entries := by
  simpa using mem_insertAll member

theorem mem_names_ofList {entries : List (String × α)} {name : String} :
    name ∈ (ofList entries).map Prod.fst ↔ name ∈ entries.map Prod.fst := by
  have names : name ∈ (ofList entries).map Prod.fst ↔
      name ∈ ([] : List (String × α)).map Prod.fst ∨
      name ∈ entries.map Prod.fst :=
    mem_names_insertAll
  rw [names]
  simp

theorem insert_map {β : Type} (change : α → β) (name : String) (content : α)
    (entries : List (String × α)) :
    (insert name content entries).map (Prod.map id change) =
      insert name (change content) (entries.map (Prod.map id change)) := by
  induction entries with
  | nil => rfl
  | cons head rest induction =>
      obtain ⟨other, old⟩ := head
      simp only [insert, List.map_cons, Prod.map_apply, id_eq]
      split
      · rfl
      · split
        · rfl
        · rw [List.map_cons, induction]
          rfl

/-- Changing contents commutes with sorting by names. -/
theorem ofList_map {β : Type} (change : α → β) (entries : List (String × α)) :
    (ofList entries).map (Prod.map id change) =
      ofList (entries.map (Prod.map id change)) := by
  have fold : ∀ sorted : List (String × α),
      (insertAll sorted entries).map (Prod.map id change) =
        insertAll (sorted.map (Prod.map id change))
          (entries.map (Prod.map id change)) := by
    induction entries with
    | nil => exact fun sorted => rfl
    | cons entry entries induction =>
        intro sorted
        simp only [List.foldl_cons, List.map_cons, induction, insert_map]
        rfl
  exact fold []

/-- Sorted entries are left as they are. -/
theorem ofList_of_increasing
    {entries : List (String × α)} (increasing : Increasing entries) :
    ofList entries = entries := by
  have nothing : Increasing ([] ++ entries) := increasing
  exact insertAll_of_increasing nothing

theorem mem_ofList
    {entries : List (String × α)} (distinct : (entries.map Prod.fst).Nodup)
    {entry : String × α} :
    entry ∈ ofList entries ↔ entry ∈ entries := by
  constructor
  · exact mem_of_mem_ofList
  · intro member
    have named : entry.1 ∈ (ofList entries).map Prod.fst :=
      mem_names_ofList.mpr (List.mem_map_of_mem member)
    obtain ⟨other, isOther, sameName⟩ := List.mem_map.mp named
    have same : other = entry :=
      List.inj_on_of_nodup_map distinct (mem_of_mem_ofList isOther) member
        sameName
    exact same ▸ isOther

theorem ofList_eq_of_perm {left right : List (String × α)}
    (distinct : (left.map Prod.fst).Nodup) (permuted : left.Perm right) :
    ofList left = ofList right := by
  have irreflexive :
      Std.Irrefl fun left right : String × α => left.1 < right.1 :=
    ⟨fun entry => String.lt_irrefl entry.1⟩
  have asymmetric :
      Std.Antisymm fun left right : String × α => left.1 < right.1 :=
    ⟨fun _ _ below above => absurd above (String.lt_asymm below)⟩
  apply (increasing_ofList left).eq_of_mem_iff (increasing_ofList right)
  intro entry
  have rightDistinct := (permuted.map Prod.fst).nodup_iff.mp distinct
  rw [mem_ofList distinct, mem_ofList rightDistinct, permuted.mem_iff]

end Workflow.Sorted
