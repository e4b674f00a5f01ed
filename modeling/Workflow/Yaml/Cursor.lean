/-!
# Places in YAML text

Which characters YAML text may hold, and a cursor that walks over them.  A line
ends at any of several line ends; all but two of them count as a line feed, and
are replaced by one up front.
-/

namespace Workflow.Yaml

/-- Characters that end a line, once line ends are unified. -/
def isBreak (c : Char) : Bool :=
  c == '\n' || c == '\u2028' || c == '\u2029'

/-- Characters that separate words within a line. -/
def isGap (c : Char) : Bool :=
  c == ' ' || c == '\t'

/-- Whether a word ends in front of a text. -/
def endsWord : List Char → Bool
  | [] => true
  | c :: _ => isGap c || isBreak c

/-- Characters of the names of anchors and of the handles of tags. -/
def isNamePart (c : Char) : Bool :=
  c.isAlphanum || c == '_' || c == '-'

/-- Characters that YAML text may hold. -/
def isAllowed (c : Char) : Bool :=
  c == '\t' || c == '\n' || c == '\r' || (' ' ≤ c && c ≤ '~') ||
  c == '\u0085' || ('\u00a0' ≤ c && c.toNat ≤ 0xFFFD) || 0x10000 ≤ c.toNat

/-- Replaces line ends by line feeds. -/
def unifyBreaks : List Char → List Char
  | [] => []
  | '\r' :: '\n' :: rest => '\n' :: unifyBreaks rest
  | '\r' :: rest => '\n' :: unifyBreaks rest
  | c :: rest => (if c == '\u0085' then '\n' else c) :: unifyBreaks rest

/-- The characters of a text with unified line ends; nothing if one of them is
not allowed. -/
def characters? (text : String) : Option (List Char) :=
  if text.toList.all isAllowed then some (unifyBreaks text.toList) else none

/-- A place in a text: the number of bytes before it, its line and its
column. -/
structure Position where
  index : Nat
  line : Nat
  column : Nat
  deriving DecidableEq, Repr

def Position.after (position : Position) (c : Char) : Position :=
  if isBreak c then ⟨position.index + c.utf8Size, position.line + 1, 0⟩
  else ⟨position.index + c.utf8Size, position.line, position.column + 1⟩

/-- A place, with the text that follows it. -/
structure Cursor where
  position : Position
  rest : List Char
  deriving DecidableEq, Repr

namespace Cursor

def start (text : List Char) : Cursor :=
  ⟨⟨0, 0, 0⟩, text⟩

def next (cursor : Cursor) : Cursor :=
  match cursor.rest with
  | [] => cursor
  | c :: rest => ⟨cursor.position.after c, rest⟩

/-- The run of characters of a class, from a place on, and the place behind
it. -/
def spanFrom (keep : Char → Bool) (position : Position) :
    List Char → List Char × Cursor
  | [] => ([], ⟨position, []⟩)
  | c :: rest =>
      if keep c then
        let (later, behind) := spanFrom keep (position.after c) rest
        (c :: later, behind)
      else ([], ⟨position, c :: rest⟩)

/-- The run of characters of a class, and the place behind it. -/
def span (cursor : Cursor) (keep : Char → Bool) : List Char × Cursor :=
  spanFrom keep cursor.position cursor.rest

/-- Steps over characters of a class. -/
def skipWhile (cursor : Cursor) (keep : Char → Bool) : Cursor :=
  (cursor.span keep).2

/-- Steps over the rest of a line: blanks, a comment, and the end of the
line. -/
def finishLine? (cursor : Cursor) : Option Cursor :=
  let behind := cursor.skipWhile isGap
  let behind :=
    match behind.rest with
    | '#' :: _ => behind.skipWhile (!isBreak ·)
    | _ => behind
  match behind.rest with
  | [] => some behind
  | c :: _ => if isBreak c then some behind.next else none

/-- Whether three characters of a kind stand alone at the start of a line. -/
def isMarker (position : Position) (mark : Char) : List Char → Bool
  | first :: second :: third :: rest =>
      position.column == 0 && first == mark && second == mark &&
      third == mark && endsWord rest
  | _ => false

/-- Whether a document starts or ends at a place. -/
def atMarker (position : Position) (text : List Char) : Bool :=
  isMarker position '-' text || isMarker position '.' text

end Cursor

end Workflow.Yaml
