/-!
# Paths into a document

A path leads from a starting point to a value: by keys into objects, by
positions into arrays. The starting point is the document itself, or a subtree
with a name of its own.
-/

namespace Workflow

/-- Where in a document something stands. -/
inductive Path where
  | document
  | named (text : String)
  | field (parent : Path) (key : String)
  | index (parent : Path) (position : Nat)
  deriving DecidableEq, Repr

namespace Path

/-- How a path is written: keys behind dots, except right at the document,
positions in brackets. -/
def render : Path → String
  | .document => ""
  | .named text => text
  | .field .document key => key
  | .field parent key => parent.render ++ "." ++ key
  | .index parent position => parent.render ++ "[" ++ toString position ++ "]"

/-- The path of an item of an array that is the value of a key. -/
def item (parent : Path) (key : String) (position : Nat) : Path :=
  .index (.field parent key) position

end Path

end Workflow
