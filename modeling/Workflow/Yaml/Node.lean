import Workflow.Yaml.Token

/-!
# Nodes of a YAML document

Tokens are put together to a tree of scalars, sequences, mappings and aliases.
A node that is left out is an empty plain scalar.  Anchors are numbered: an
alias holds the number that its name has where it stands, and the table of
targets says which node has a number in the end.
-/

namespace Workflow.Yaml

/-- A node, with its tag if it has one. -/
inductive Node where
  | scalar (tag : Option (List UInt8)) (text : String) (plain : Bool)
  | sequence (tag : Option (List UInt8)) (items : List Node)
  | mapping (tag : Option (List UInt8)) (entries : List (Node × Node))
  | aliasOf (number : Nat)
  deriving Repr

namespace Node

/-- The node that stands where none is written. -/
def empty : Node :=
  .scalar none "" true

mutual

/-- Number of steps in which a node is announced: a collection has a start and
an end. -/
def size : Node → Nat
  | .scalar _ _ _ => 1
  | .sequence _ items => sizeList items + 2
  | .mapping _ entries => sizeEntries entries + 2
  | .aliasOf _ => 1

def sizeList : List Node → Nat
  | [] => 0
  | node :: rest => node.size + sizeList rest

def sizeEntries : List (Node × Node) → Nat
  | [] => 0
  | (key, value) :: rest => key.size + value.size + sizeEntries rest

end

end Node

/-- The anchors of a document: the number of each name, how many anchors there
have been, which of them has a number, and the nodes of those that are
complete. -/
structure Anchors where
  numbers : List (String × Nat)
  count : Nat
  latest : List (Nat × Nat)
  nodes : List (Nat × Node)

namespace Anchors

def none : Anchors :=
  ⟨[], 0, [], []⟩

/-- Meets an anchor. Its number is how many different names there have been
before it; it takes the number over from any anchor that had it. -/
def declare (anchors : Anchors) (name : String) : Anchors :=
  let number := anchors.numbers.length
  { anchors with
    numbers := (name, number) :: anchors.numbers.filter (·.1 != name)
    count := anchors.count + 1
    latest := (number, anchors.count) :: anchors.latest }

/-- The node of the anchor that was met as the given one. -/
def complete (anchors : Anchors) (met : Nat) (node : Node) : Anchors :=
  { anchors with nodes := (met, node) :: anchors.nodes }

def target? (anchors : Anchors) (number : Nat) : Option Node := do
  anchors.nodes.lookup (← anchors.latest.lookup number)

end Anchors

/-- What is left to read, what handles of tags stand for, and the anchors
met. -/
structure NodeReader where
  tokens : List Token
  handles : List (String × List UInt8)
  anchors : Anchors

namespace NodeReader

abbrev Reader := StateT NodeReader Option

def advance : Reader Unit :=
  modify fun reader => { reader with tokens := reader.tokens.drop 1 }

def peek? : Reader (Option Token) := do
  return (← get).tokens.head?

/-- Whether the next token is one of some. -/
def nextIs (tokens : List Token) : Reader Bool := do
  return (← peek?).any tokens.contains

/-- Drops the next token if it is the given one, and says whether it was. -/
def accept (token : Token) : Reader Bool := do
  if ← nextIs [token] then
    advance
    return true
  else return false

/-- Drops the next token, which must be the given one. -/
def expect (token : Token) : Reader Unit := do
  if ← accept token then return () else failure

/-- The tag that a handle and a suffix stand for. -/
def resolveTag (handle : String) (suffix : List UInt8) :
    Reader (List UInt8) := do
  if handle = "" then return suffix
  else
    match (← get).handles.lookup handle with
    | some expansion => return expansion ++ suffix
    | none => failure

/-- The anchor and the tag in front of a node. -/
structure Properties where
  anchor : Option String
  tag : Option (List UInt8)

def readTag : Reader (Option (List UInt8)) := do
  match ← peek? with
  | some (.tag handle suffix) =>
      advance
      return some (← resolveTag handle suffix)
  | _ => return none

/-- Reads an anchor, if there is one. -/
def readAnchor : Reader (Option String) := do
  match ← peek? with
  | some (.anchor name) =>
      advance
      return some name
  | _ => return none

/-- Reads anchor and tag in either order. -/
def readProperties : Reader Properties := do
  match ← readAnchor with
  | some name => return ⟨some name, ← readTag⟩
  | none =>
      let tag ← readTag
      return ⟨← if tag.isSome then readAnchor else pure none, tag⟩

/-- Reads a node, and names it by an anchor. -/
def anchored (anchor : Option String) (read : Reader Node) : Reader Node := do
  match anchor with
  | none => read
  | some name =>
      let met := (← get).anchors.count
      modify fun reader =>
        { reader with anchors := reader.anchors.declare name }
      let node ← read
      modify fun reader =>
        { reader with anchors := reader.anchors.complete met node }
      return node

def readAlias (name : String) : Reader Node := do
  match (← get).anchors.numbers.lookup name with
  | some number =>
      advance
      return .aliasOf number
  | none => failure

/-- A node, unless one of some tokens comes next. -/
def unlessNext (tokens : List Token) (read : Reader Node) : Reader Node := do
  if ← nextIs tokens then return .empty else read

mutual

/-- Reads a node. Block collections are only read where `block` says so, and
sequences at the indentation of their key only where `indentless` does. -/
def readNode (fuel : Nat) (block indentless : Bool) : Reader Node := do
  match fuel, ← peek? with
  | 0, _ => failure
  | _, some (.aliasOf name) => readAlias name
  | fuel + 1, _ =>
      let properties ← readProperties
      anchored properties.anchor (readContent fuel properties block indentless)

/-- Reads a node behind its properties. -/
def readContent
    (fuel : Nat) (properties : Properties) (block indentless : Bool) :
    Reader Node := do
  match fuel, ← peek? with
  | 0, _ => failure
  | fuel + 1, some .blockEntry =>
      if indentless then
        return .sequence properties.tag (← readIndentless fuel)
      else readNothing properties
  | _, some (.scalar text plain) =>
      advance
      return .scalar properties.tag text plain
  | fuel + 1, some .flowSequenceStart =>
      advance
      return .sequence properties.tag (← readFlowSequence fuel true)
  | fuel + 1, some .flowMappingStart =>
      advance
      return .mapping properties.tag (← readFlowMapping fuel true)
  | fuel + 1, some .blockSequenceStart =>
      if block then
        advance
        return .sequence properties.tag (← readBlockSequence fuel)
      else readNothing properties
  | fuel + 1, some .blockMappingStart =>
      if block then
        advance
        return .mapping properties.tag (← readBlockMapping fuel)
      else readNothing properties
  | _, _ => readNothing properties

/-- A node without content has an anchor or a tag at least. -/
def readNothing (properties : Properties) : Reader Node := do
  if properties.anchor.isSome || properties.tag.isSome then
    return .scalar properties.tag "" true
  else failure

/-- Reads the items of a block sequence. -/
def readBlockSequence (fuel : Nat) : Reader (List Node) := do
  match fuel with
  | 0 => failure
  | fuel + 1 =>
      if ← accept .blockEntry then
        let item ← unlessNext [.blockEntry, .blockEnd]
          (readNode fuel true false)
        return item :: (← readBlockSequence fuel)
      else
        expect .blockEnd
        return []

/-- Reads the items of a sequence at the indentation of its key. -/
def readIndentless (fuel : Nat) : Reader (List Node) := do
  match fuel with
  | 0 => failure
  | fuel + 1 =>
      if ← accept .blockEntry then
        let item ← unlessNext [.blockEntry, .key, .value, .blockEnd]
          (readNode fuel true false)
        return item :: (← readIndentless fuel)
      else return []

/-- Reads the entries of a block mapping. -/
def readBlockMapping (fuel : Nat) : Reader (List (Node × Node)) := do
  match fuel with
  | 0 => failure
  | fuel + 1 =>
      if ← accept .key then
        let key ← unlessNext [.key, .value, .blockEnd]
          (readNode fuel true true)
        let value ← readBlockValue fuel
        return (key, value) :: (← readBlockMapping fuel)
      else
        expect .blockEnd
        return []

/-- Reads the value of an entry of a block mapping. -/
def readBlockValue (fuel : Nat) : Reader Node := do
  match fuel with
  | 0 => failure
  | fuel + 1 =>
      if ← accept .value then
        unlessNext [.key, .value, .blockEnd] (readNode fuel true true)
      else return .empty

/-- Reads the items of a bracketed sequence; all but the first are behind a
comma. An item may be a single entry of a mapping. -/
def readFlowSequence (fuel : Nat) (first : Bool) : Reader (List Node) := do
  match fuel with
  | 0 => failure
  | fuel + 1 =>
      if ← accept .flowSequenceEnd then return []
      else
        if !first then expect .flowEntry
        if ← accept .flowSequenceEnd then return []
        else if ← accept .key then
          let pair ← readPair fuel
          return .mapping none [pair] :: (← readFlowSequence fuel false)
        else
          let item ← readNode fuel false false
          return item :: (← readFlowSequence fuel false)

/-- Reads a single entry in a bracketed sequence. A token that shows the key to
be missing is dropped. -/
def readPair (fuel : Nat) : Reader (Node × Node) := do
  match fuel with
  | 0 => failure
  | fuel + 1 =>
      let key ←
        if ← nextIs [.value, .flowEntry, .flowSequenceEnd] then
          advance
          pure Node.empty
        else readNode fuel false false
      if ← accept .value then
        return (key,
          ← unlessNext [.flowEntry, .flowSequenceEnd]
            (readNode fuel false false))
      else return (key, .empty)

/-- Reads the entries of a bracketed mapping; all but the first are behind a
comma. -/
def readFlowMapping (fuel : Nat) (first : Bool) :
    Reader (List (Node × Node)) := do
  match fuel with
  | 0 => failure
  | fuel + 1 =>
      if ← accept .flowMappingEnd then return []
      else
        if !first then expect .flowEntry
        if ← accept .flowMappingEnd then return []
        else if ← accept .key then
          let key ← unlessNext [.value, .flowEntry, .flowMappingEnd]
            (readNode fuel false false)
          let value ← readFlowValue fuel
          return (key, value) :: (← readFlowMapping fuel false)
        else
          let key ← readNode fuel false false
          return (key, .empty) :: (← readFlowMapping fuel false)

/-- Reads the value of an entry of a bracketed mapping. -/
def readFlowValue (fuel : Nat) : Reader Node := do
  match fuel with
  | 0 => failure
  | fuel + 1 =>
      if ← accept .value then
        unlessNext [.flowEntry, .flowMappingEnd] (readNode fuel false false)
      else return .empty

end

def defaultHandles : List (String × List UInt8) :=
  [("!", octetsOf "!"), ("!!", octetsOf "tag:yaml.org,2002:")]

/-- Reads the directives in front of a document; a version may be given once,
and each handle once. -/
def readDirectives (versioned : Bool) (handles : List (String × List UInt8)) :
    List Token → Option (List (String × List UInt8) × List Token)
  | .versionDirective major minor :: rest =>
      if versioned || major != 1 || (minor != 1 && minor != 2) then none
      else readDirectives true handles rest
  | .tagDirective handle expansion :: rest =>
      if (handles.lookup handle).isSome then none
      else readDirectives versioned ((handle, expansion) :: handles) rest
  | tokens => some (handles, tokens)

/-- A document: its node, and its anchors. -/
structure Document where
  root : Node
  anchors : Anchors

/-- Reads the one node of a document; behind it nothing may follow but ends of
documents. A step of reading that takes no token is followed by one that does,
so the fuel suffices. -/
def readDocument?
    (handles : List (String × List UInt8)) (read : Bool)
    (tokens : List Token) : Option Document := do
  let (root, reader) ←
    if read then
      (readNode (4 * tokens.length + 4) true false).run
        ⟨tokens, handles, .none⟩
    else some (.empty, ⟨tokens, handles, .none⟩)
  if reader.tokens.all (· == .documentEnd) then some ⟨root, reader.anchors⟩
  else none

/-- Tokens that cannot start the node of a document. -/
def isBoundary : Token → Bool
  | .versionDirective _ _ | .tagDirective _ _ | .documentStart
  | .documentEnd => true
  | _ => false

/-- The document of a list of tokens. A text without a document stands for an
empty one. -/
def document? (tokens : List Token) : Option Document := do
  let (handles, rest) ← readDirectives false [] tokens
  let handles := handles ++ defaultHandles
  match rest with
  | .documentStart :: content =>
      readDocument? handles (content.head?.any (!isBoundary ·)) content
  | content =>
      if content.length < tokens.length then none
      else readDocument? handles (!content.isEmpty) content

end NodeReader

end Workflow.Yaml
