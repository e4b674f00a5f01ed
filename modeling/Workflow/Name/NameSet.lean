/-!
# Sets of names

A set of names is its list of members in increasing order of code points.  The
order is part of the type, so two sets with the same members are equal, and
every list that is shown to a reader is sorted.
-/

namespace Workflow

/-- A finite set of names, kept as the increasing list of its members. -/
structure NameSet where
  names : List String
  increasing : names.Pairwise (· < ·)
  deriving DecidableEq

namespace NameSet

instance : Membership String NameSet where
  mem set name := name ∈ set.names

instance (name : String) (set : NameSet) : Decidable (name ∈ set) :=
  inferInstanceAs (Decidable (name ∈ set.names))

theorem mem_def {name : String} {set : NameSet} :
    name ∈ set ↔ name ∈ set.names :=
  Iff.rfl

def empty : NameSet :=
  ⟨[], List.Pairwise.nil⟩

instance : EmptyCollection NameSet := ⟨empty⟩

instance : Inhabited NameSet := ⟨empty⟩

/-- Puts a name into an increasing list, unless it is there. -/
def insertInto (name : String) : List String → List String
  | [] => [name]
  | head :: rest =>
      if name < head then name :: head :: rest
      else if name = head then head :: rest
      else head :: insertInto name rest

theorem mem_insertInto {candidate name : String} {names : List String} :
    candidate ∈ insertInto name names ↔
      candidate = name ∨ candidate ∈ names := by
  induction names with
  | nil => simp [insertInto]
  | cons head rest ih =>
      simp only [insertInto]
      split
      · simp
      · split
        · rename_i _ same
          subst same
          simp
        · simp only [List.mem_cons, ih]
          constructor
          · rintro (first | second | third)
            · exact .inr (.inl first)
            · exact .inl second
            · exact .inr (.inr third)
          · rintro (first | second | third)
            · exact .inr (.inl first)
            · exact .inl second
            · exact .inr (.inr third)

private theorem lt_of_not_lt_of_ne {left right : String}
    (notBelow : ¬ left < right) (different : left ≠ right) : right < left := by
  refine Decidable.byContradiction fun notAbove => different ?_
  exact String.le_antisymm (String.not_lt.mp notAbove)
    (String.not_lt.mp notBelow)

theorem increasing_insertInto
    {name : String} {names : List String}
    (increasing : names.Pairwise (· < ·)) :
    (insertInto name names).Pairwise (· < ·) := by
  induction names with
  | nil => simp [insertInto]
  | cons head rest ih =>
      obtain ⟨below, restIncreasing⟩ := List.pairwise_cons.mp increasing
      simp only [insertInto]
      split
      · rename_i before
        refine List.pairwise_cons.mpr ⟨fun other member => ?_, increasing⟩
        rcases List.mem_cons.mp member with first | later
        · exact first ▸ before
        · exact String.lt_trans before (below other later)
      · rename_i notBefore
        split
        · exact increasing
        · rename_i different
          refine List.pairwise_cons.mpr
            ⟨fun other member => ?_, ih restIncreasing⟩
          rcases mem_insertInto.mp member with first | later
          · exact first ▸ lt_of_not_lt_of_ne notBefore different
          · exact below other later

def insert (set : NameSet) (name : String) : NameSet :=
  ⟨insertInto name set.names, increasing_insertInto set.increasing⟩

/-- Keeps the names that satisfy a condition. -/
def filter (set : NameSet) (keep : String → Bool) : NameSet :=
  ⟨set.names.filter keep, set.increasing.filter _⟩

def erase (set : NameSet) (name : String) : NameSet :=
  set.filter (· != name)

def union (left right : NameSet) : NameSet :=
  right.names.foldl insert left

def inter (left right : NameSet) : NameSet :=
  left.filter fun name => decide (name ∈ right)

/-- The set of the members of a list. -/
def ofList (names : List String) : NameSet :=
  names.foldl insert empty

def isEmpty (set : NameSet) : Bool :=
  set.names.isEmpty

@[simp] theorem mem_insert {candidate name : String} {set : NameSet} :
    candidate ∈ set.insert name ↔ candidate = name ∨ candidate ∈ set :=
  mem_insertInto

@[simp] theorem mem_filter
    {candidate : String} {set : NameSet} {keep : String → Bool} :
    candidate ∈ set.filter keep ↔ candidate ∈ set ∧ keep candidate = true :=
  List.mem_filter

@[simp] theorem mem_erase {candidate name : String} {set : NameSet} :
    candidate ∈ set.erase name ↔ candidate ∈ set ∧ candidate ≠ name := by
  simp [erase]

private theorem mem_foldl_insert
    {candidate : String} {names : List String} {set : NameSet} :
    candidate ∈ names.foldl insert set ↔
      candidate ∈ set ∨ candidate ∈ names := by
  induction names generalizing set with
  | nil => simp
  | cons head rest ih =>
      simp only [List.foldl_cons, ih, mem_insert, List.mem_cons]
      constructor
      · rintro ((first | second) | third)
        · exact .inr (.inl first)
        · exact .inl second
        · exact .inr (.inr third)
      · rintro (first | second | third)
        · exact .inl (.inr first)
        · exact .inl (.inl second)
        · exact .inr third

@[simp] theorem mem_union {candidate : String} {left right : NameSet} :
    candidate ∈ left.union right ↔ candidate ∈ left ∨ candidate ∈ right :=
  mem_foldl_insert

@[simp] theorem mem_inter {candidate : String} {left right : NameSet} :
    candidate ∈ left.inter right ↔ candidate ∈ left ∧ candidate ∈ right := by
  simp [inter]

@[simp] theorem mem_ofList {candidate : String} {names : List String} :
    candidate ∈ ofList names ↔ candidate ∈ names := by
  rw [ofList, mem_foldl_insert]
  simp [mem_def, empty]

end NameSet

end Workflow
