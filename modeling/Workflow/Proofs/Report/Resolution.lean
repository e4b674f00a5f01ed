import Workflow.Proofs.Text.Pieces
import Workflow.Proofs.Value.Members
import Workflow.Proofs.Value.Tokens
import Workflow.Report.Path

/-!
# Reading paths back

A path is written as keys behind dots, with positions in brackets.  Read that
way, in a document whose keys hold none of these characters, the text of a path
leads to the value that the path was built for.
-/

namespace Workflow

/-- The number in front of a closing bracket. -/
def position? (piece : List Char) : Option Nat :=
  let digits := piece.dropLast
  if piece.getLast? = some ']' ∧ digits ≠ [] ∧ digits.all Char.isDigit then
    some (Number.ofDigits digits)
  else none

namespace Value

def member? (value : Value) (key : String) : Option Value :=
  match value with
  | .object members => Members.get? members key
  | _ => none

def item? (value : Value) (position : Nat) : Option Value :=
  match value with
  | .array items => items[position]?
  | _ => none

/-- Follows a segment of a path: a key, and the positions in brackets behind
it. -/
def follow? (value : Value) (segment : List Char) : Option Value :=
  match Text.pieces '[' segment with
  | [] => none
  | key :: positions => do
      let inner ← value.member? (String.ofList key)
      positions.foldlM (fun value piece => do value.item? (← position? piece))
        inner

/-- The value that the text of a path leads to; no text leads to the document
itself. -/
def resolve? (document : Value) (text : String) : Option Value :=
  if text = "" then some document
  else (Text.pieces '.' text.toList).foldlM follow? document

/-- A key that can be told from what stands around it in the text of a path. -/
def isPlainKey (key : String) : Bool :=
  key.toList != [] && key.toList.all fun c => c != '.' && c != '[' && c != ']'

mutual

/-- A value in whose objects all keys are plain and none occurs twice. -/
def isAddressable : Value → Bool
  | .array items => areAddressable items
  | .object members =>
      decide (members.map Prod.fst).Nodup && areMembersAddressable members
  | _ => true

def areAddressable : List Value → Bool
  | [] => true
  | item :: rest => isAddressable item && areAddressable rest

def areMembersAddressable : List (String × Value) → Bool
  | [] => true
  | (key, value) :: rest =>
      isPlainKey key && isAddressable value && areMembersAddressable rest

end

theorem areAddressable_iff {items : List Value} :
    areAddressable items = true ↔
      ∀ item ∈ items, item.isAddressable = true := by
  induction items with
  | nil => simp [areAddressable]
  | cons item rest induction => simp [areAddressable, induction]

theorem areMembersAddressable_iff {members : Members} :
    areMembersAddressable members = true ↔
      ∀ member ∈ members,
        isPlainKey member.1 = true ∧ member.2.isAddressable = true := by
  induction members with
  | nil => simp [areMembersAddressable]
  | cons member rest induction =>
      simp [areMembersAddressable, induction, and_assoc]

end Value

/-- The value stands at a path of the document. -/
inductive At (document : Value) : Path → Value → Prop where
  | root : At document .document document
  | field {path : Path} {members : Members} {key : String} {value : Value}
      (inside : At document path (.object members))
      (given : members.get? key = some value) :
      At document (.field path key) value
  | item {path : Path} {members : Members} {key : String} {items : List Value}
      {position : Nat} {value : Value}
      (inside : At document path (.object members))
      (given : members.get? key = some (.array items))
      (taken : items[position]? = some value) :
      At document (path.item key position) value

namespace At

variable {document value : Value} {path : Path}

theorem isAddressable
    (stands : At document path value)
    (addressable : document.isAddressable = true) :
    value.isAddressable = true := by
  induction stands with
  | root => exact addressable
  | field inside given induction =>
      rw [Value.isAddressable, Bool.and_eq_true,
        Value.areMembersAddressable_iff] at induction
      exact (induction.2 _ (Members.mem_of_get? given)).2
  | item inside given taken induction =>
      rw [Value.isAddressable, Bool.and_eq_true,
        Value.areMembersAddressable_iff] at induction
      have array := (induction.2 _ (Members.mem_of_get? given)).2
      rw [Value.isAddressable, Value.areAddressable_iff] at array
      exact array _ (List.mem_of_getElem? taken)

theorem distinct
    {members : Members} (stands : At document path (.object members))
    (addressable : document.isAddressable = true) :
    (members.map Prod.fst).Nodup := by
  have object := stands.isAddressable addressable
  rw [Value.isAddressable, Bool.and_eq_true] at object
  exact of_decide_eq_true object.1

theorem isPlainKey
    {members : Members} (stands : At document path (.object members))
    (addressable : document.isAddressable = true) {key : String}
    (given : members.get? key = some value) :
    Value.isPlainKey key = true := by
  have object := stands.isAddressable addressable
  rw [Value.isAddressable, Bool.and_eq_true,
    Value.areMembersAddressable_iff] at object
  exact (object.2 _ (Members.mem_of_get? given)).1

end At

theorem isPlainKey_iff {key : String} :
    Value.isPlainKey key = true ↔
      key.toList ≠ [] ∧ ∀ c ∈ key.toList, c ≠ '.' ∧ c ≠ '[' ∧ c ≠ ']' := by
  simp [Value.isPlainKey, and_assoc]

/-- A position as a piece behind an opening bracket. -/
def positionChars (position : Nat) : List Char :=
  Nat.toDigits 10 position ++ [']']

theorem position?_positionChars (position : Nat) :
    position? (positionChars position) = some position := by
  have digits : (Nat.toDigits 10 position).all Char.isDigit = true :=
    List.all_eq_true.mpr fun c member => Number.isDigit_of_mem_toDigits member
  simp [position?, positionChars, digits, Nat.toDigits_ne_nil,
    Number.ofDigits_toDigits]

theorem ne_of_mem_positionChars {position : Nat} {c other : Char}
    (member : c ∈ positionChars position) (noDigit : other.isDigit = false)
    (different : other ≠ ']') : c ≠ other := by
  rintro rfl
  rcases List.mem_append.mp member with inDigits | isBracket
  · simp [Number.isDigit_of_mem_toDigits inDigits] at noDigit
  · exact different (List.mem_singleton.mp isBracket)

/-- A segment is followed to the value of its key, and from there by its
positions. -/
theorem follow?_segment
    (value : Value) {key : String} (plain : Value.isPlainKey key = true)
    (positions : List Nat) :
    value.follow?
      (key.toList ++ (positions.map positionChars).flatMap ('[' :: ·)) =
      (value.member? key).bind fun inner =>
        positions.foldlM Value.item? inner := by
  have noBracket : ∀ piece ∈ key.toList :: positions.map positionChars,
      ∀ c ∈ piece, c ≠ '[' := by
    intro piece member c inPiece
    rcases List.mem_cons.mp member with rfl | isPosition
    · exact ((isPlainKey_iff.mp plain).2 c inPiece).2.1
    · obtain ⟨position, _, rfl⟩ := List.mem_map.mp isPosition
      exact ne_of_mem_positionChars inPiece (by decide) (by decide)
  simp [Value.follow?, Text.pieces_flatMap noBracket, List.foldlM_map,
    position?_positionChars, bind]

/-- The segments of a path with dots between them. -/
def dotted : List (List Char) → List Char
  | [] => []
  | first :: rest => first ++ rest.flatMap ('.' :: ·)

theorem dotted_concat
    {segments : List (List Char)} (notEmpty : segments ≠ [])
    (segment : List Char) :
    dotted (segments ++ [segment]) = dotted segments ++ '.' :: segment := by
  obtain ⟨first, rest, rfl⟩ := List.exists_cons_of_ne_nil notEmpty
  simp [dotted]

theorem render_field
    {parent : Path} (notDocument : parent ≠ .document) (key : String) :
    (Path.field parent key).render = parent.render ++ "." ++ key := by
  cases parent with
  | document => exact absurd rfl notDocument
  | named text => rfl
  | field parent other => rfl
  | index parent position => rfl

/-- What a path and something behind it are written as, given the segments of
the path. -/
theorem render_field_append
    {path : Path} {segments : List (List Char)} (key : String)
    (suffix : List Char) (rendered : path.render.toList = dotted segments)
    (atDocument : segments = [] ↔ path = .document) :
    (Path.field path key).render.toList ++ suffix =
      dotted (segments ++ [key.toList ++ suffix]) := by
  by_cases isDocument : path = .document
  · rw [atDocument.mpr isDocument, isDocument]
    simp [dotted, Path.render]
  · rw [dotted_concat (mt atDocument.mp isDocument), ← rendered,
      render_field isDocument]
    simp

theorem At.exists_segments
    {document value : Value} {path : Path} (stands : At document path value)
    (addressable : document.isAddressable = true) :
    ∃ segments, path.render.toList = dotted segments ∧
      (segments = [] ↔ path = .document) ∧
      (∀ segment ∈ segments, segment ≠ [] ∧ ∀ c ∈ segment, c ≠ '.') ∧
      segments.foldlM Value.follow? document = some value := by
  induction stands with
  | root => exact ⟨[], rfl, by simp, by simp, rfl⟩
  | @field path members key value inside given induction =>
      obtain ⟨segments, rendered, atDocument, dotless, followed⟩ := induction
      have plain := inside.isPlainKey addressable given
      have step := follow?_segment (.object members) plain []
      have text := render_field_append key [] rendered atDocument
      simp only [List.append_nil, List.map_nil, List.flatMap_nil,
        List.foldlM_nil] at step text
      refine ⟨segments ++ [key.toList], text, by simp, ?_, ?_⟩
      · intro segment member
        rcases List.mem_append.mp member with before | isLast
        · exact dotless segment before
        · obtain rfl := List.mem_singleton.mp isLast
          obtain ⟨notEmpty, chars⟩ := isPlainKey_iff.mp plain
          exact ⟨notEmpty, fun c inKey => (chars c inKey).1⟩
      · rw [List.foldlM_append, followed]
        simp [step, Value.member?, given]
  | @item path members key items position value inside given taken induction =>
      obtain ⟨segments, rendered, atDocument, dotless, followed⟩ := induction
      have plain := inside.isPlainKey addressable given
      have step := follow?_segment (.object members) plain [position]
      have text :=
        render_field_append key ('[' :: positionChars position) rendered
          atDocument
      simp only [List.map_cons, List.map_nil, List.flatMap_cons,
        List.flatMap_nil, List.append_nil] at step
      refine ⟨segments ++ [key.toList ++ '[' :: positionChars position], ?_,
        by simp [Path.item],
        ?_, ?_⟩
      · rw [← text]
        simp [Path.item, Path.render, positionChars]
      · intro segment member
        rcases List.mem_append.mp member with before | isLast
        · exact dotless segment before
        · obtain rfl := List.mem_singleton.mp isLast
          refine ⟨by simp, ?_⟩
          intro c inSegment
          rcases List.mem_append.mp inSegment with inKey | behind
          · exact ((isPlainKey_iff.mp plain).2 c inKey).1
          · rcases List.mem_cons.mp behind with rfl | inPosition
            · decide
            · exact ne_of_mem_positionChars inPosition (by decide) (by decide)
      · rw [List.foldlM_append, followed]
        simp [step, Value.member?, given, Value.item?, taken]

/-- The text of a path leads to the value at the path. -/
theorem At.resolve?_render
    {document value : Value} {path : Path} (stands : At document path value)
    (addressable : document.isAddressable = true) :
    document.resolve? path.render = some value := by
  obtain ⟨segments, rendered, _, dotless, followed⟩ :=
    stands.exists_segments addressable
  cases segments with
  | nil =>
      have empty : path.render = "" := String.toList_inj.mp rendered
      rw [Value.resolve?, if_pos empty]
      exact followed
  | cons first rest =>
      have notEmpty : path.render ≠ "" := by
        intro empty
        rw [empty] at rendered
        exact (dotless first List.mem_cons_self).1
          (List.append_eq_nil_iff.mp rendered.symm).1
      have cut : Text.pieces '.' path.render.toList = first :: rest := by
        rw [rendered]
        exact Text.pieces_flatMap fun segment member =>
          (dotless segment member).2
      rw [Value.resolve?, if_neg notEmpty, cut, followed]

end Workflow
