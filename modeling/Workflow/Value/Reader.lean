import Workflow.Value.Token

/-!
# Reading JSON

A machine with a stack reads the tokens one by one.  A frame of the stack is a
container that is still open, so the size of the stack is the nesting of the
text, which is limited.
-/

namespace Workflow.Value

/-- A container that is still open, its contents in reverse. -/
inductive Frame where
  | array (items : List Value)
  | object (members : List (String × Value))
  | member (members : List (String × Value)) (key : String)

inductive Expected where
  | value
  | valueOrEnd
  | keyOrEnd
  | key
  | colon
  | commaOrEnd
  | nothing (result : Value)

/-- The containers that are open, innermost first, and what may come next. -/
structure ReadState where
  stack : List Frame
  expected : Expected

namespace ReadState

/-- A value has been read: it goes into the innermost container. -/
def complete? (value : Value) : List Frame → Option ReadState
  | [] => some ⟨[], .nothing value⟩
  | .array items :: stack =>
      some ⟨.array (value :: items) :: stack, .commaOrEnd⟩
  | .member members key :: stack =>
      some ⟨.object ((key, value) :: members) :: stack, .commaOrEnd⟩
  | .object _ :: _ => none

def close? (token : Token) (stack : List Frame) : Option ReadState :=
  match token, stack with
  | .rightBracket, .array items :: rest =>
      complete? (.array items.reverse) rest
  | .rightBrace, .object members :: rest =>
      complete? (.object (Members.ofPairs members.reverse)) rest
  | _, _ => none

/-- A value begins; a container may begin while fewer than `limit` ones are
open. -/
def begin? (limit : Nat) (token : Token) (stack : List Frame) :
    Option ReadState :=
  match token with
  | .null => complete? .null stack
  | .bool value => complete? (.bool value) stack
  | .number value => complete? (.number value) stack
  | .text value => complete? (.string value) stack
  | .leftBracket =>
      if stack.length < limit then some ⟨.array [] :: stack, .valueOrEnd⟩
      else none
  | .leftBrace =>
      if stack.length < limit then some ⟨.object [] :: stack, .keyOrEnd⟩
      else none
  | _ => none

/-- A key begins a member of the innermost object. -/
def beginMember? (token : Token) (stack : List Frame) : Option ReadState :=
  match token, stack with
  | .text key, .object members :: rest =>
      some ⟨.member members key :: rest, .colon⟩
  | _, _ => none

/-- A comma separates two items or two members. -/
def separate? (stack : List Frame) : Option ReadState :=
  match stack with
  | .array _ :: _ => some ⟨stack, .value⟩
  | .object _ :: _ => some ⟨stack, .key⟩
  | _ => none

def step? (limit : Nat) (state : ReadState) (token : Token) :
    Option ReadState :=
  match state.expected with
  | .value => begin? limit token state.stack
  | .valueOrEnd =>
      if token = .rightBracket then close? token state.stack
      else begin? limit token state.stack
  | .keyOrEnd =>
      if token = .rightBrace then close? token state.stack
      else beginMember? token state.stack
  | .key => beginMember? token state.stack
  | .colon => if token = .colon then some ⟨state.stack, .value⟩ else none
  | .commaOrEnd =>
      if token = .comma then separate? state.stack
      else close? token state.stack
  | .nothing _ => none

end ReadState

/-- Containers may nest this deep in JSON text. -/
def maxNesting : Nat := 127

/-- Reads JSON text in which at most `limit` containers nest. -/
def ofJsonWithin? (limit : Nat) (text : String) : Option Value := do
  let tokens ← Token.lex? text.toList
  let final ← tokens.foldlM (ReadState.step? limit) ⟨[], .value⟩
  match final.expected with
  | .nothing result => some result
  | _ => none

def ofJson? (text : String) : Option Value :=
  ofJsonWithin? maxNesting text

end Workflow.Value
