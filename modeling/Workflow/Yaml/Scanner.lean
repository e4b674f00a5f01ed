import Workflow.Yaml.ScalarText
import Workflow.Yaml.Token

/-!
# From YAML text to tokens

Blocks are told by indentation, and that a scalar, or a whole bracketed
collection, was a key is only known once the colon behind it is met.  So the
scanner remembers for every level of brackets where a key may have begun; when
the colon comes, the tokens that open the key are put in there.  A key stands
on one line and is not longer than `maxKeyLength`.
-/

namespace Workflow.Yaml

/-- Greatest number of bytes between the start of a key and its colon. -/
def maxKeyLength : Nat := 1024

/-- The start of a possible key: how many tokens stand before it, and its
place. A required key starts a line at the indentation of its block, where
nothing else may stand. -/
structure KeyStart where
  number : Nat
  position : Position
  required : Bool
  deriving DecidableEq, Repr

/-- The scanner: the text ahead, the tokens so far (in reverse) and their
number, the possible keys (one for every level of brackets and one outside of
them, innermost first), the indentation of the block it is in and of those
around it, and whether a key may start here. -/
structure Scanner where
  cursor : Cursor
  tokens : List Token
  count : Nat
  keys : List (Option KeyStart)
  indent : Int
  indents : List Int
  keyAllowed : Bool

namespace Scanner

/-- The scanner at the start of a text. -/
def start (text : List Char) : Scanner :=
  ⟨Cursor.start text, [], 0, [none], -1, [], true⟩

/-- Whether the scanner is inside of brackets. -/
def inFlow (scanner : Scanner) : Bool :=
  1 < scanner.keys.length

/-- The column of the next character. -/
def column (scanner : Scanner) : Nat :=
  scanner.cursor.position.column

def push (scanner : Scanner) (token : Token) : Scanner :=
  { scanner with
    tokens := token :: scanner.tokens, count := scanner.count + 1 }

/-- Puts a token behind the first `number` tokens. -/
def insert (scanner : Scanner) (number : Nat) (token : Token) : Scanner :=
  let (later, earlier) := scanner.tokens.splitAt (scanner.count - number)
  { scanner with
    tokens := later ++ token :: earlier, count := scanner.count + 1 }

/-- Opens a block at a column, unless one is open there; its token goes behind
the first `number` tokens. -/
def openBlock (scanner : Scanner) (column number : Nat) (token : Token) :
    Scanner :=
  if scanner.inFlow || column ≤ scanner.indent then scanner
  else
    { scanner.insert number token with
      indents := scanner.indent :: scanner.indents, indent := column }

/-- Closes blocks that are deeper than a column, innermost first. -/
def closeFrom (column : Int) : List Int → Scanner → Scanner
  | [], scanner => scanner
  | outer :: rest, scanner =>
      if column < scanner.indent then
        closeFrom column rest
          { scanner.push .blockEnd with indent := outer, indents := rest }
      else scanner

/-- Closes the blocks that end at a column. -/
def closeBlocks (scanner : Scanner) (column : Int) : Scanner :=
  if scanner.inFlow then scanner else closeFrom column scanner.indents scanner

/-- Gives up a possible key; a required one cannot be given up. -/
def forgetKey? (scanner : Scanner) : Option Scanner :=
  match scanner.keys with
  | some key :: outer =>
      if key.required then none
      else some { scanner with keys := none :: outer }
  | _ => some scanner

/-- Remembers that a key may start here. -/
def saveKey? (scanner : Scanner) : Option Scanner :=
  if scanner.keyAllowed then do
    let required := !scanner.inFlow && scanner.indent == scanner.column
    let cleared ← scanner.forgetKey?
    let key : KeyStart := ⟨scanner.count, scanner.cursor.position, required⟩
    return { cleared with keys := some key :: cleared.keys.drop 1 }
  else some scanner

/-- A possible key that has become too long is none any more; a required one
must not become so. -/
def renewKey? (position : Position) :
    Option KeyStart → Option (Option KeyStart)
  | none => some none
  | some key =>
      if key.position.line < position.line ||
          key.position.index + maxKeyLength < position.index then
        if key.required then none else some none
      else some (some key)

/-- Drops the possible keys that have become too long. -/
def renewKeys? (scanner : Scanner) : Option Scanner := do
  let keys ← scanner.keys.mapM (renewKey? scanner.cursor.position)
  return { scanner with keys := keys }

/-- Whether a character is a byte order mark at the start of a line. -/
def isLineMark (position : Position) (c : Char) : Bool :=
  position.column == 0 && c == '\ufeff'

/-- Steps over blanks, comments and line ends from a place on; tabs count as
blanks only where no key may start, and a byte order mark may start a line, of
which it takes up a column. The end of a line allows a key again, outside of
brackets. -/
def skipFrom (inFlow keyAllowed inComment : Bool) (position : Position) :
    List Char → Bool × Cursor
  | [] => (keyAllowed, ⟨position, []⟩)
  | c :: rest =>
      if isBreak c then
        skipFrom inFlow (keyAllowed || !inFlow) false (position.after c) rest
      else if inComment || c == ' ' ||
        (c == '\t' && (inFlow || !keyAllowed)) || isLineMark position c then
        skipFrom inFlow keyAllowed inComment (position.after c) rest
      else if c == '#' then
        skipFrom inFlow keyAllowed true (position.after c) rest
      else (keyAllowed, ⟨position, c :: rest⟩)

/-- Goes to the next token and closes the blocks that end before it. -/
def approach? (scanner : Scanner) : Option Scanner := do
  let (keyAllowed, cursor) := skipFrom scanner.inFlow scanner.keyAllowed false
    scanner.cursor.position scanner.cursor.rest
  let renewed ← renewKeys?
    { scanner with keyAllowed := keyAllowed, cursor := cursor }
  return renewed.closeBlocks renewed.column

/-- Steps over a number of characters. -/
def skip (scanner : Scanner) : Nat → Scanner
  | 0 => scanner
  | number + 1 => skip { scanner with cursor := scanner.cursor.next } number

def allowKey (scanner : Scanner) (allowed : Bool) : Scanner :=
  { scanner with keyAllowed := allowed }

def marker? (scanner : Scanner) (token : Token) : Option Scanner := do
  let cleared ← (scanner.closeBlocks (-1)).forgetKey?
  return ((cleared.allowKey false).skip 3).push token

def openBracket? (scanner : Scanner) (token : Token) : Option Scanner := do
  let saved ← scanner.saveKey?
  return (({ saved with keys := none :: saved.keys }.allowKey true).skip
      1).push token

def closeBracket? (scanner : Scanner) (token : Token) : Option Scanner := do
  let cleared ← scanner.forgetKey?
  let keys := if cleared.inFlow then cleared.keys.drop 1 else cleared.keys
  return (({ cleared with keys := keys }.allowKey false).skip 1).push token

def flowEntry? (scanner : Scanner) : Option Scanner := do
  let cleared ← scanner.forgetKey?
  return ((cleared.allowKey true).skip 1).push .flowEntry

/-- An indicator that opens a block where none is open, which is only possible
where a key could start. -/
def opensBlock? (scanner : Scanner) (token : Token) : Option Scanner :=
  if scanner.inFlow then some scanner
  else if scanner.keyAllowed then
    some (scanner.openBlock scanner.column scanner.count token)
  else none

def blockEntry? (scanner : Scanner) : Option Scanner := do
  let cleared ← (← scanner.opensBlock? .blockSequenceStart).forgetKey?
  return ((cleared.allowKey true).skip 1).push .blockEntry

/-- A question mark in front of a key. -/
def key? (scanner : Scanner) : Option Scanner := do
  let cleared ← (← scanner.opensBlock? .blockMappingStart).forgetKey?
  return ((cleared.allowKey !cleared.inFlow).skip 1).push .key

/-- A colon in front of a value: what was possibly a key is one, or the key was
announced. -/
def value? (scanner : Scanner) : Option Scanner := do
  match scanner.keys with
  | some key :: outer =>
      let keyed :=
        (scanner.insert key.number .key).openBlock key.position.column
          key.number .blockMappingStart
      return (({ keyed with keys := none :: outer }.allowKey false).skip
          1).push .value
  | _ =>
      let opened ← scanner.opensBlock? .blockMappingStart
      return ((opened.allowKey !opened.inFlow).skip 1).push .value

/-- A token that may be, or begin, a key, read from behind its first
character. -/
def node? (scanner : Scanner) (read? : Cursor → Option (Token × Cursor)) :
    Option Scanner := do
  let saved ← scanner.saveKey?
  let (token, cursor) ← read? saved.cursor.next
  return ({ saved with cursor := cursor }.allowKey false).push token

def quoted?
    (scanner : Scanner)
    (read? : Position → List Char → Option (List Char × Cursor)) :
    Option Scanner :=
  scanner.node? fun cursor => do
    let (text, behind) ← read? cursor.position cursor.rest
    return (.scalar (String.ofList text) false, behind)

def block? (scanner : Scanner) (folded : Bool) : Option Scanner := do
  let cleared ← scanner.forgetKey?
  let (text, cursor) ← blockScalar? folded cleared.indent cleared.cursor.next
  return ({ cleared with cursor := cursor }.allowKey true).push
    (.scalar (String.ofList text) false)

/-- A plain scalar. A key may start behind it if a line ended there. -/
def plain? (scanner : Scanner) : Option Scanner := do
  let saved ← scanner.saveKey?
  let cursor := saved.cursor
  let read ← plainText? saved.inFlow (saved.indent + 1) [] .none
    cursor.position cursor.rest
  return ({ saved with cursor := read.behind }.allowKey read.broken).push
    (.scalar (String.ofList read.text) true)

/-- Characters that never start a plain scalar. -/
def isIndicator (c : Char) : Bool :=
  "-?:,[]\x7b\x7d#&*!|>'\"%@\x60".toList.contains c

/-- Whether a plain scalar starts with a character, in view of what follows. -/
def startsPlain (inFlow : Bool) (c : Char) (rest : List Char) : Bool :=
  !(isGap c || isBreak c || isIndicator c) ||
    (c == '-' && !rest.head?.any isGap) ||
    (!inFlow && (c == '?' || c == ':') && !endsWord rest)

/-- Reads the token that starts with a character. -/
def token? (scanner : Scanner) (c : Char) (rest : List Char) :
    Option Scanner :=
  let position := scanner.cursor.position
  let indicates := scanner.inFlow || endsWord rest
  if c == '%' && position.column == 0 then do
    let cleared ← (scanner.closeBlocks (-1)).forgetKey?
    let (token, cursor) ← directive? cleared.cursor.next
    return ({ cleared with cursor := cursor }.allowKey false).push token
  else if Cursor.isMarker position '-' (c :: rest) then
    scanner.marker? .documentStart
  else if Cursor.isMarker position '.' (c :: rest) then
    scanner.marker? .documentEnd
  else if c == '[' then scanner.openBracket? .flowSequenceStart
  else if c == '\x7b' then scanner.openBracket? .flowMappingStart
  else if c == ']' then scanner.closeBracket? .flowSequenceEnd
  else if c == '\x7d' then scanner.closeBracket? .flowMappingEnd
  else if c == ',' then scanner.flowEntry?
  else if c == '-' && endsWord rest then scanner.blockEntry?
  else if c == '?' && indicates then scanner.key?
  else if c == ':' && indicates then scanner.value?
  else if c == '*' then scanner.node? fun cursor => do
    let (name, behind) ← anchorName? cursor
    return (.aliasOf name, behind)
  else if c == '&' then scanner.node? fun cursor => do
    let (name, behind) ← anchorName? cursor
    return (.anchor name, behind)
  else if c == '!' then scanner.node? (tag? scanner.inFlow)
  else if c == '|' && !scanner.inFlow then scanner.block? false
  else if c == '>' && !scanner.inFlow then scanner.block? true
  else if c == '\'' then scanner.quoted? (singleQuoted? [] .none)
  else if c == '"' then scanner.quoted? (doubleQuoted? [] .none .outside)
  else if startsPlain scanner.inFlow c rest then scanner.plain?
  else none

def finish? (scanner : Scanner) : Option (List Token) := do
  let cleared ← (scanner.closeBlocks (-1)).forgetKey?
  return cleared.tokens.reverse

/-- Reads tokens up to the end of the text. Every token takes a character at
least, so the number of characters bounds the number of steps. -/
def run? : Nat → Scanner → Option (List Token)
  | 0, _ => none
  | steps + 1, scanner => do
      let near ← scanner.approach?
      match near.cursor.rest with
      | [] => near.finish?
      | c :: rest => run? steps (← near.token? c rest)

end Scanner

def tokens? (text : List Char) : Option (List Token) :=
  Scanner.run? (text.length + 1) (Scanner.start text)

end Workflow.Yaml
