import Workflow.Number.Shortest

/-!
# Document values

The data a document is made of, whatever notation it was written in.  Objects
are lists of members, since the order of members is kept and shown.
-/

namespace Workflow

/-- A number is kept as an integer when it was written as one. -/
inductive Number where
  | integer (value : Int)
  | double (value : Double)
  deriving DecidableEq, Repr

inductive Value where
  | null
  | bool (value : Bool)
  | number (value : Number)
  | string (text : String)
  | array (items : List Value)
  | object (members : List (String × Value))
  deriving Inhabited, Repr

/-- The members of an object, in order. -/
abbrev Members := List (String × Value)

namespace Members

def get? (members : Members) (key : String) : Option Value :=
  members.lookup key

def keys (members : Members) : List String :=
  members.map Prod.fst

/-- Sets the value of a key: in place when the key is there, at the end
otherwise. -/
def insert (members : Members) (key : String) (value : Value) : Members :=
  match members with
  | [] => [(key, value)]
  | (other, old) :: rest =>
      if other = key then (key, value) :: rest
      else (other, old) :: insert rest key value

/-- Members given one after the other: a repeated key keeps its first position
and its last value. -/
def ofPairs (pairs : List (String × Value)) : Members :=
  pairs.foldl (fun members pair => insert members pair.1 pair.2) []

/-- A looked-up value is smaller than the members it comes from. -/
theorem sizeOf_get?
    {members : Members} {key : String} {value : Value}
    (found : members.get? key = some value) :
    sizeOf value < sizeOf members := by
  induction members with
  | nil => simp [get?] at found
  | cons head rest ih =>
      obtain ⟨other, old⟩ := head
      simp only [get?, List.lookup_cons] at found ih
      split at found
      · simp only [Option.some.injEq] at found
        subst found
        simp only [List.cons.sizeOf_spec, Prod.mk.sizeOf_spec]
        omega
      · have := ih found
        simp only [List.cons.sizeOf_spec]
        omega

end Members

namespace Value

/-- What messages call a value of this shape. -/
def shape : Value → String
  | .null => "null"
  | .bool _ => "boolean"
  | .number _ => "number"
  | .string _ => "string"
  | .array _ => "array"
  | .object _ => "object"

def isNull : Value → Bool
  | .null => true
  | _ => false

mutual

/-- Number of arrays and objects around the innermost value. -/
def depth : Value → Nat
  | .array items => depthList items + 1
  | .object members => depthMembers members + 1
  | _ => 0

def depthList : List Value → Nat
  | [] => 0
  | item :: rest => max (depth item) (depthList rest)

def depthMembers : List (String × Value) → Nat
  | [] => 0
  | (_, value) :: rest => max (depth value) (depthMembers rest)

end

end Value

end Workflow
