import Workflow.Value.Token
import Workflow.Yaml.Cursor

/-!
# Scalars in YAML text

The five ways of writing a scalar.  Quoted and plain scalars go on over lines,
and what stands between two of their words is folded; block scalars keep their
lines, or fold them, by indentation.  Each reader walks over the text character
by character and gives the scalar's text together with the place behind it.
-/

namespace Workflow.Yaml

/-- What has been read since the last word of a scalar: blanks of one line (in
reverse), or line ends, the first one apart from the later ones (in
reverse). -/
inductive Gap where
  | blanks (reversed : List Char)
  | breaks (first : Option Char) (later : List Char)
  deriving DecidableEq, Repr

namespace Gap

def none : Gap :=
  .blanks []

def isBroken : Gap → Bool
  | .blanks _ => false
  | .breaks _ _ => true

/-- Whether there is nothing between words. -/
def isNone : Gap → Bool
  | .blanks reversed => reversed.isEmpty
  | .breaks _ _ => false

/-- One more blank or line end: blanks around line ends do not count. -/
def add (gap : Gap) (c : Char) : Gap :=
  match gap with
  | .blanks reversed =>
      if isBreak c then .breaks (some c) [] else .blanks (c :: reversed)
  | .breaks first later =>
      if isBreak c then .breaks first (c :: later) else gap

/-- Puts a gap behind a text, both in reverse. A single line feed becomes a
blank; of several, the first is dropped. -/
def join (gap : Gap) (reversed : List Char) : List Char :=
  match gap with
  | .blanks read => read ++ reversed
  | .breaks (some '\n') [] => ' ' :: reversed
  | .breaks (some '\n') later => later ++ reversed
  | .breaks first later => later ++ first.toList ++ reversed

end Gap

/-- Reads a single-quoted scalar from behind its opening quote. -/
def singleQuoted? (reversed : List Char) (gap : Gap) (position : Position) :
    List Char → Option (List Char × Cursor)
  | [] => none
  | '\'' :: '\'' :: rest =>
      singleQuoted? ('\'' :: gap.join reversed) .none
        ((position.after '\'').after '\'') rest
  | '\'' :: rest =>
      some ((gap.join reversed).reverse, ⟨position.after '\'', rest⟩)
  | c :: rest =>
      if Cursor.atMarker position (c :: rest) then none
      else if isGap c || isBreak c then
        singleQuoted? reversed (gap.add c) (position.after c) rest
      else singleQuoted? (c :: gap.join reversed) .none (position.after c) rest

/-- The character that a short escape stands for. -/
def shortEscape? : Char → Option Char
  | '0' => some '\x00'
  | 'a' => some '\x07'
  | 'b' => some '\x08'
  | 't' | '\t' => some '\t'
  | 'n' => some '\n'
  | 'v' => some '\x0b'
  | 'f' => some '\x0c'
  | 'r' => some '\r'
  | 'e' => some '\x1b'
  | ' ' => some ' '
  | '"' => some '"'
  | '/' => some '/'
  | '\\' => some '\\'
  | 'N' => some '\u0085'
  | '_' => some '\u00a0'
  | 'L' => some '\u2028'
  | 'P' => some '\u2029'
  | _ => none

/-- Number of digits of an escape by code point. -/
def escapeLength? : Char → Option Nat
  | 'x' => some 2
  | 'u' => some 4
  | 'U' => some 8
  | _ => none

inductive EscapeState where
  | outside
  | begun
  | digits (missing value : Nat)
  deriving DecidableEq, Repr

/-- The character of a code point; surrogates are none. -/
def ofCodePoint? (value : Nat) : Option Char :=
  if 0x10FFFF < value || (0xD800 ≤ value && value ≤ 0xDFFF) then none
  else some (Char.ofNat value)

/-- Reads a double-quoted scalar from behind its opening quote. -/
def doubleQuoted?
    (reversed : List Char) (gap : Gap) (escape : EscapeState)
    (position : Position) : List Char → Option (List Char × Cursor)
  | [] => none
  | c :: rest =>
      match escape with
      | .digits missing value =>
          match Token.hexValue? c with
          | none => none
          | some digit =>
              let value := 16 * value + digit
              if missing ≤ 1 then
                match ofCodePoint? value with
                | none => none
                | some character =>
                    doubleQuoted? (character :: reversed) gap .outside
                      (position.after c) rest
              else doubleQuoted? reversed gap (.digits (missing - 1) value)
                (position.after c) rest
      | .begun =>
          if isBreak c then
            doubleQuoted? reversed (.breaks none []) .outside
              (position.after c) rest
          else
            match shortEscape? c, escapeLength? c with
            | some character, _ =>
                doubleQuoted? (character :: reversed) gap .outside
                  (position.after c) rest
            | none, some length =>
                doubleQuoted? reversed gap (.digits length 0)
                  (position.after c) rest
            | none, none => none
      | .outside =>
          if Cursor.atMarker position (c :: rest) then none
          else if isGap c || isBreak c then
            doubleQuoted? reversed (gap.add c) .outside (position.after c) rest
          else if c == '"' then
            some ((gap.join reversed).reverse, ⟨position.after c, rest⟩)
          else if c == '\\' then
            doubleQuoted? (gap.join reversed) .none .begun (position.after c)
              rest
          else doubleQuoted? (c :: gap.join reversed) .none .outside
            (position.after c) rest

/-- Characters that end a plain scalar inside of brackets. -/
def isFlowIndicator (c : Char) : Bool :=
  c == ',' || c == '[' || c == ']' || c == '\x7b' || c == '\x7d'

/-- Whether a plain scalar ends in front of a character, in view of what
follows. -/
def endsPlain (inFlow : Bool) (c : Char) (rest : List Char) : Bool :=
  (c == ':' && endsWord rest) || (inFlow && isFlowIndicator c)

/-- Inside of brackets a colon may not stand right in front of certain
indicators. -/
def isStrayColon (inFlow : Bool) (c : Char) (rest : List Char) : Bool :=
  inFlow && c == ':' &&
  rest.head?.any fun next => isFlowIndicator next || next == '?'

/-- A plain scalar, whether a line ended behind it, and the place behind it. -/
structure PlainText where
  text : List Char
  broken : Bool
  behind : Cursor

/-- The plain scalar that ends at a place. -/
def PlainText.ending (reversed : List Char) (gap : Gap) (behind : Cursor) :
    PlainText :=
  ⟨reversed.reverse, gap.isBroken, behind⟩

/-- Reads a plain scalar whose lines are indented by at least `indent`. -/
def plainText?
    (inFlow : Bool) (indent : Int) (reversed : List Char) (gap : Gap)
    (position : Position) : List Char → Option PlainText
  | [] => some (.ending reversed gap ⟨position, []⟩)
  | c :: rest =>
      let shallow : Bool := position.column < indent
      if isGap c || isBreak c then
        if c == '\t' && gap.isBroken && shallow then none
        else plainText? inFlow indent reversed (gap.add c) (position.after c)
          rest
      else if !gap.isNone &&
          ((!inFlow && shallow) || Cursor.atMarker position (c :: rest) ||
            c == '#') then
        some (.ending reversed gap ⟨position, c :: rest⟩)
      else if isStrayColon inFlow c rest then none
      else if endsPlain inFlow c rest then
        some (.ending reversed gap ⟨position, c :: rest⟩)
      else plainText? inFlow indent (c :: gap.join reversed) .none
        (position.after c) rest

/-- What becomes of the line ends behind the last line of a block scalar. -/
inductive Chomping where
  | strip
  | clip
  | keep
  deriving DecidableEq, Repr

/-- The header of a block scalar: what to do with final line ends, and the
additional indentation if it is given. -/
structure BlockHeader where
  chomping : Chomping
  increment : Option Nat

/-- A chomping indicator at the front. -/
def chomping? : List Char → Option (Chomping × List Char)
  | '+' :: rest => some (.keep, rest)
  | '-' :: rest => some (.strip, rest)
  | _ => none

/-- An indentation indicator at the front. -/
def increment? : List Char → Option (Nat × List Char)
  | c :: rest => if c.isDigit then some (c.toNat - 0x30, rest) else none
  | [] => none

/-- The indicators of a block scalar in either order, and what follows them. -/
def blockIndicators (text : List Char) : BlockHeader × List Char :=
  match chomping? text with
  | some (chomping, rest) =>
      match increment? rest with
      | some (increment, rest) => (⟨chomping, some increment⟩, rest)
      | none => (⟨chomping, none⟩, rest)
  | none =>
      match increment? text with
      | none => (⟨.clip, none⟩, text)
      | some (increment, rest) =>
          match chomping? rest with
          | some (chomping, rest) => (⟨chomping, some increment⟩, rest)
          | none => (⟨.clip, some increment⟩, rest)

/-- Reads the header of a block scalar up to the end of its line. -/
def blockHeader? (cursor : Cursor) : Option (BlockHeader × Cursor) := do
  let (header, rest) := blockIndicators cursor.rest
  if header.increment = some 0 then none
  else
    let width := cursor.rest.length - rest.length
    let position := cursor.position
    let behind ← Cursor.finishLine?
      ⟨⟨position.index + width, position.line, position.column + width⟩, rest⟩
    return (header, behind)

/-- The deepest indentation among the empty lines at a place and the line
behind them. A tab may not stand there. -/
def deepestIndent? (deepest column : Nat) : List Char → Option Nat
  | [] => some (max deepest column)
  | c :: rest =>
      if c == ' ' then deepestIndent? deepest (column + 1) rest
      else if c == '\t' then none
      else if isBreak c then deepestIndent? (max deepest column) 0 rest
      else some (max deepest column)

/-- A block scalar as far as it has been read, all texts in reverse: its lines,
the end of the last one, and the ends of the empty lines behind it. -/
structure BlockText where
  lines : List Char
  ending : Option Char
  empty : List Char
  indented : Bool

namespace BlockText

/-- Begins a further line with its first character. In a folded scalar a line
feed between two lines that do not start with a blank becomes a blank, unless
empty lines follow it. -/
def beginLine (block : BlockText) (folded : Bool) (c : Char) : BlockText :=
  let joined :=
    if folded && block.ending == some '\n' && !block.indented && !isGap c then
      if block.empty.isEmpty then ' ' :: block.lines else block.lines
    else block.ending.toList ++ block.lines
  ⟨c :: (block.empty ++ joined), none, [], isGap c⟩

def finish (block : BlockText) (chomping : Chomping) : List Char :=
  let ending := if chomping = .strip then [] else block.ending.toList
  let empty := if chomping = .keep then block.empty else []
  (empty ++ ending ++ block.lines).reverse

end BlockText

/-- Reads the lines of a block scalar with the given indentation; `inLine` says
whether a line has been begun. -/
def blockText?
    (folded : Bool) (indent : Nat) (block : BlockText) (inLine : Bool)
    (position : Position) : List Char → Option (BlockText × Cursor)
  | [] => some (block, ⟨position, []⟩)
  | c :: rest =>
      if inLine then
        if isBreak c then
          blockText? folded indent { block with ending := some c } false
            (position.after c) rest
        else
          blockText? folded indent { block with lines := c :: block.lines }
            true (position.after c) rest
      else if isBreak c then
        blockText? folded indent { block with empty := c :: block.empty } false
          (position.after c) rest
      else if position.column < indent && c == ' ' then
        blockText? folded indent block false (position.after c) rest
      else if position.column < indent && c == '\t' then none
      else if position.column = indent then
        blockText? folded indent (block.beginLine folded c) true
          (position.after c) rest
      else some (block, ⟨position, c :: rest⟩)

/-- Reads a block scalar from behind its indicator, inside of a block of the
given indentation. -/
def blockScalar? (folded : Bool) (parent : Int) (cursor : Cursor) :
    Option (List Char × Cursor) := do
  let (header, behind) ← blockHeader? cursor
  let indent ←
    match header.increment with
    | some increment => some ((max parent 0).toNat + increment)
    | none => do
        let deepest ← deepestIndent? 0 0 behind.rest
        some (max deepest (max (parent + 1) 1).toNat)
  let (block, final) ←
    blockText? folded indent ⟨[], none, [], false⟩ false behind.position
      behind.rest
  return (block.finish header.chomping, final)

end Workflow.Yaml
