import Workflow.Condition.Problem

/-!
# Tokens of a condition

A machine reads a condition character by character: string literals must close,
brackets must pair up, and outside literals only ASCII, allowed names and
attributes that are not private may occur.  Reading a concatenation is reading
one part after the other, because all that is remembered is in the state.
-/

namespace Workflow.Condition

/-- Where in a condition the machine stands. -/
inductive Mode where
  | code (afterDot : Bool)
  | name (afterDot : Bool) (reversed : List Char)
  | number
  | quoted (quote : Char)
  | escaped (quote : Char)
  deriving DecidableEq, Repr

/-- Where the machine stands, and the brackets that are open, innermost
first. -/
structure Scan where
  mode : Mode
  brackets : List Char
  deriving DecidableEq, Repr

namespace Scan

/-- The state in front of a condition. -/
def start : Scan :=
  ⟨.code false, []⟩

/-- Characters of a name or a number behind the first one. -/
def isWordPart (c : Char) : Bool :=
  c.isAlphanum || c == '_'

/-- Blanks that leave a dot in force. -/
def isGap (c : Char) : Bool :=
  c == ' ' || c == '\t' || c == '\n' || c == '\x0c' || c == '\r'

/-- The bracket that a closing one pairs up with. -/
def opening (closing : Char) : Char :=
  if closing == ')' then '(' else '['

/-- Attributes are free unless they are private; other names must be
allowed. -/
def checkName (allowed : List String) (afterDot : Bool) (name : List Char) :
    Except Problem Unit :=
  if afterDot then
    if name.head? == some '_' then
      .error (.forbiddenToken (String.ofList name))
    else .ok ()
  else if allowed.contains (String.ofList name) then .ok ()
  else .error (.unknownName (String.ofList name))

/-- Reads a character outside of names, numbers and literals. -/
def readCode (afterDot : Bool) (brackets : List Char) (c : Char) :
    Except Problem Scan :=
  if c == '\'' || c == '"' then .ok ⟨.quoted c, brackets⟩
  else if c.isAlpha || c == '_' then .ok ⟨.name afterDot [c], brackets⟩
  else if c.isDigit then .ok ⟨.number, brackets⟩
  else if c == '.' then .ok ⟨.code true, brackets⟩
  else if c == '(' || c == '[' then .ok ⟨.code false, c :: brackets⟩
  else if c == ')' || c == ']' then
    match brackets with
    | innermost :: outer =>
        if innermost == opening c then .ok ⟨.code false, outer⟩
        else .error (.unbalanced (.unexpected c))
    | [] => .error (.unbalanced (.unexpected c))
  else if c == '#' || c == '\\' || 0x7F < c.toNat then
    .error (.forbiddenToken (String.singleton c))
  else if isGap c then .ok ⟨.code afterDot, brackets⟩
  else .ok ⟨.code false, brackets⟩

def step (allowed : List String) (scan : Scan) (c : Char) :
    Except Problem Scan :=
  match scan.mode with
  | .code afterDot => readCode afterDot scan.brackets c
  | .name afterDot reversed =>
      if isWordPart c then .ok ⟨.name afterDot (c :: reversed), scan.brackets⟩
      else do
        checkName allowed afterDot reversed.reverse
        readCode false scan.brackets c
  | .number =>
      if isWordPart c then .ok scan else readCode false scan.brackets c
  | .quoted quote =>
      if c == '\\' then .ok ⟨.escaped quote, scan.brackets⟩
      else if c == quote then .ok ⟨.code false, scan.brackets⟩
      else .ok scan
  | .escaped quote => .ok ⟨.quoted quote, scan.brackets⟩

/-- Checks the state behind a condition. -/
def finish (allowed : List String) (scan : Scan) : Except Problem Unit := do
  match scan.mode with
  | .quoted quote => throw (.unbalanced (.openQuote quote))
  | .escaped quote => throw (.unbalanced (.openQuote quote))
  | .name afterDot reversed => checkName allowed afterDot reversed.reverse
  | _ => pure ()
  match scan.brackets with
  | innermost :: _ => throw (.unbalanced (.neverClosed innermost))
  | [] => pure ()

end Scan

/-- Checks the tokens of a text in which only allowed names may occur. -/
def checkTokens (allowed : List String) (text : List Char) :
    Except Problem Unit := do
  let scan ← text.foldlM (Scan.step allowed) Scan.start
  scan.finish allowed

end Workflow.Condition
