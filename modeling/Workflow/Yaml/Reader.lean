import Workflow.Yaml.CoreSchema
import Workflow.Yaml.Node
import Workflow.Yaml.Scanner

/-!
# YAML documents as values

The value of a node, with every alias replaced by the value of its target.  An
alias may lead back to a node that it is part of; such a document nests without
end and is refused for its depth.  The number of aliases that are followed is
bounded too, for a small text could describe a huge value.
-/

namespace Workflow.Yaml

def maxNesting : Nat := 128

/-- A value is built while the aliases that were followed are counted. -/
abbrev Building := StateT Nat Option

/-- What follows the exclamation mark that a tag starts with. -/
def afterMark? : List UInt8 → Option (List UInt8)
  | 0x21 :: name => some name
  | _ => none

/-- Whether a tag is the document's own, which no value has. Its name is a
text. -/
def isLocalTag (tag : Option (List UInt8)) : Bool :=
  (tag.bind afterMark?).any fun name =>
    (String.fromUTF8? ⟨name.toArray⟩).isSome

/-- Where an alias leads, at the cost of one step; any other node stands for
itself. -/
def follow (anchors : Anchors) (limit : Nat) (node : Node) :
    Building Node := do
  match node with
  | .aliasOf number =>
      let followed ← get
      if limit ≤ followed then failure
      else
        set (followed + 1)
        anchors.target? number
  | other => return other

/-- The text of a key. A key is a scalar of any kind. -/
def keyText (anchors : Anchors) (limit : Nat) (node : Node) :
    Building String := do
  match ← follow anchors limit node with
  | .scalar _ text _ => return text
  | _ => failure

/-- The value of a scalar without a tag. -/
def untaggedValue? (text : String) (plain : Bool) : Option Value :=
  if plain then plainValue? text else some (.string text)

/-- The value of a scalar. A tag that starts like one of the document's own,
but whose name is no text, does not count. -/
def scalarValue? (tag : Option (List UInt8)) (text : String) (plain : Bool) :
    Option Value :=
  match tag with
  | none => untaggedValue? text plain
  | some octets =>
      if isLocalTag tag then none
      else if (afterMark? octets).isSome then untaggedValue? text plain
      else taggedValue? octets text

/-- The value of a node in which collections nest at most `depth` deep. -/
def valueOf (anchors : Anchors) (limit : Nat) : Nat → Node → Building Value
  | depth, node => do
      match depth, ← follow anchors limit node with
      | _, .scalar tag text plain => scalarValue? tag text plain
      | depth + 1, .sequence tag items =>
          if isLocalTag tag then failure
          else return .array (← items.mapM (valueOf anchors limit depth))
      | depth + 1, .mapping tag entries =>
          if isLocalTag tag then failure
          else
            let pairs ← entries.mapM fun (key, content) => do
              let name ← keyText anchors limit key
              return (name, ← valueOf anchors limit depth content)
            return .object (Members.ofPairs pairs)
      | _, _ => failure

def NodeReader.Document.value? (document : NodeReader.Document) :
    Option Value :=
  let limit := 100 * document.root.size
  ((valueOf document.anchors limit maxNesting document.root).run 0).map
    Prod.fst

end Workflow.Yaml

namespace Workflow.Value

def ofYaml? (text : String) : Option Value := do
  let characters ← Yaml.characters? text
  let tokens ← Yaml.tokens? characters
  (← Yaml.NodeReader.document? tokens).value?

end Workflow.Value
