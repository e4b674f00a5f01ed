import Workflow.Program.Tree

/-!
# Calls as Python reads them

The part of Python in which tool calls are written, with a reader of its own: a
text is cut into lexemes, and a machine with a stack of open brackets builds
the call from them.  The reader knows nothing of the way calls are emitted.  It
takes a comma in front of a closing bracket, as Python does, and refuses what
Python has but no call needs.  Whole numbers are read as integers, and other
numbers are kept as they are written.
-/

namespace Workflow.Program

/-- The functions that may be called inside of an argument. -/
inductive Helper where
  | lookup
  | join
  | environment
  deriving DecidableEq

namespace Helper

def name : Helper → String
  | .lookup => "ctx.get"
  | .join => "_text"
  | .environment => "os.environ.get"

def ofName? (name : String) : Option Helper :=
  [lookup, join, environment].find? fun helper => helper.name == name

end Helper

/-- An expression that an argument may be. -/
inductive Term where
  | none
  | bool (value : Bool)
  | integer (value : Int)
  | decimal (numeral : String)
  | text (value : String)
  | list (items : List Term)
  | dictionary (entries : List (String × Term))
  | application (helper : Helper) (arguments : List Term)

/-- A call with its named arguments, and those of a dictionary that is unpacked
behind them. -/
structure Call where
  function : String
  named : List (String × Term)
  unpacked : List (String × Term)

inductive Lexeme where
  | mark (sign : Char)
  | stars
  | text (value : String)
  | integer (value : Int)
  | decimal (numeral : String)
  | name (value : String)
  deriving DecidableEq

namespace Lexeme

/-- The signs that are lexemes by themselves. -/
def marks : List Char :=
  ['(', ')', '[', ']', '\x7b', '\x7d', ',', ':', '=']

def isMark (c : Char) : Bool :=
  marks.contains c

def isNameStart (c : Char) : Bool :=
  c.isAlpha || c == '_'

/-- Names with dots between them are one lexeme. -/
def isNamePart (c : Char) : Bool :=
  c.isAlphanum || c == '_' || c == '.'

/-- The escapes of one letter that texts of programs need, and what they stand
for. -/
def shortEscapes : List (Char × Char) :=
  [('"', '"'), ('\\', '\\'), ('b', '\x08'), ('f', '\x0c'), ('n', '\n'),
    ('r', '\r'), ('t', '\t')]

/-- The inside of a string up to its closing quote, and the text behind that
quote. -/
def unescape? (reversed : List Char) :
    List Char → Option (List Char × List Char)
  | [] => none
  | '"' :: rest => some (reversed.reverse, rest)
  | '\\' :: 'u' :: a :: b :: c :: d :: rest =>
      match Token.hexValue4? a b c d with
      | some code =>
          if code.isValidChar then unescape? (Char.ofNat code :: reversed) rest
          else none
      | none => none
  | '\\' :: c :: rest =>
      match shortEscapes.lookup c with
      | some meant => unescape? (meant :: reversed) rest
      | none => none
  | c :: rest =>
      if c = '\n' ∨ c = '\r' then none else unescape? (c :: reversed) rest

theorem length_unescape?
    {reversed input value rest : List Char}
    (read : unescape? reversed input = some (value, rest)) :
    rest.length < input.length := by
  fun_induction unescape? reversed input <;> simp_all <;> omega

/-- A number with its sign. Whole numbers may be of any size. -/
def ofNumeral (text : List Char) : Lexeme :=
  let (negative, unsigned) :=
    match text with
    | '-' :: rest => (true, rest)
    | other => (false, other)
  if Number.isWhole unsigned then
    let magnitude : Int := Number.ofDigits unsigned
    .integer (if negative then -magnitude else magnitude)
  else .decimal (String.ofList text)

/-- The lexemes of a text, behind those already found (in reverse). -/
def lexFrom? (found : List Lexeme) (input : List Char) :
    Option (List Lexeme) :=
  match input with
  | [] => some found.reverse
  | ' ' :: rest => lexFrom? found rest
  | '*' :: '*' :: rest => lexFrom? (.stars :: found) rest
  | '"' :: rest =>
      match _read : unescape? [] rest with
      | some (value, after) =>
          lexFrom? (.text (String.ofList value) :: found) after
      | none => none
  | c :: rest =>
      if isMark c then lexFrom? (.mark c :: found) rest
      else if isNameStart c then
        lexFrom?
          (.name (String.ofList (c :: rest.takeWhile isNamePart)) :: found)
          (rest.dropWhile isNamePart)
      else if c.isDigit || c == '-' then
        lexFrom? (ofNumeral (c :: rest.takeWhile Token.isNumberChar) :: found)
          (rest.dropWhile Token.isNumberChar)
      else none
termination_by input.length
decreasing_by
  all_goals rw [List.length_cons]
  · exact Nat.lt_succ_self _
  · exact Nat.lt_succ_of_lt (Nat.lt_succ_self _)
  · exact Nat.lt_succ_of_lt (length_unescape? _read)
  · exact Nat.lt_succ_self _
  · exact Nat.lt_succ_of_le (List.dropWhile_sublist isNamePart).length_le
  · exact Nat.lt_succ_of_le
      (List.dropWhile_sublist Token.isNumberChar).length_le

end Lexeme

/-- A bracket that is still open, its contents in reverse, or an argument or an
entry of which the name is known and not yet the value. -/
inductive Frame where
  | list (items : List Term)
  | application (helper : Helper) (arguments : List Term)
  | dictionary (entries : List (String × Term))
  | entry (entries : List (String × Term)) (key : String)
  | call (function : String) (named : List (String × Term))
  | argument (function : String) (named : List (String × Term)) (name : String)
  | unpacking (function : String) (named : List (String × Term))

inductive Expected where
  | value
  | valueOrEnd
  | opening (helper : Helper)
  | keyOrEnd
  | colon
  | argumentOrEnd
  | equals
  | commaOrEnd
  | closing (result : Call)
  | nothing (result : Call)

/-- The open brackets, innermost first, and what may come next. -/
structure Reading where
  stack : List Frame
  expected : Expected

namespace Reading

/-- An expression has been read: it goes into the innermost bracket. -/
def complete? (term : Term) : List Frame → Option Reading
  | .list items :: stack => some ⟨.list (term :: items) :: stack, .commaOrEnd⟩
  | .application helper arguments :: stack =>
      some ⟨.application helper (term :: arguments) :: stack, .commaOrEnd⟩
  | .entry entries key :: stack =>
      some ⟨.dictionary ((key, term) :: entries) :: stack, .commaOrEnd⟩
  | .argument function named name :: stack =>
      some ⟨.call function ((name, term) :: named) :: stack, .commaOrEnd⟩
  | [.unpacking function named] =>
      match term with
      | .dictionary entries =>
          some ⟨[], .closing ⟨function, named.reverse, entries⟩⟩
      | _ => none
  | _ => none

def close? (sign : Char) (stack : List Frame) : Option Reading :=
  match sign, stack with
  | ']', .list items :: rest => complete? (.list items.reverse) rest
  | ')', .application helper arguments :: rest =>
      complete? (.application helper arguments.reverse) rest
  | '\x7d', .dictionary entries :: rest =>
      complete? (.dictionary entries.reverse) rest
  | ')', [.call function named] =>
      some ⟨[], .nothing ⟨function, named.reverse, []⟩⟩
  | _, _ => none

def constant? (name : String) : Option Term :=
  if name = "None" then some .none
  else if name = "True" then some (.bool true)
  else if name = "False" then some (.bool false)
  else none

/-- An expression begins. -/
def begin? (lexeme : Lexeme) (stack : List Frame) : Option Reading :=
  match lexeme with
  | .integer value => complete? (.integer value) stack
  | .decimal numeral => complete? (.decimal numeral) stack
  | .text value => complete? (.text value) stack
  | .mark '[' => some ⟨.list [] :: stack, .valueOrEnd⟩
  | .mark '\x7b' => some ⟨.dictionary [] :: stack, .keyOrEnd⟩
  | .name name =>
      match constant? name with
      | some term => complete? term stack
      | none =>
          (Helper.ofName? name).map fun helper => ⟨stack, .opening helper⟩
  | _ => none

/-- What may come behind a comma. -/
def separate? (stack : List Frame) : Option Reading :=
  match stack with
  | .list _ :: _ => some ⟨stack, .valueOrEnd⟩
  | .application _ _ :: _ => some ⟨stack, .valueOrEnd⟩
  | .dictionary _ :: _ => some ⟨stack, .keyOrEnd⟩
  | .call _ _ :: _ => some ⟨stack, .argumentOrEnd⟩
  | _ => none

/-- Names that an argument may be given by: without dots, and none that Python
keeps for itself. -/
def isArgumentName (name : String) : Bool :=
  !name.toList.contains '.' && !isKeyword name && (constant? name).isNone

def step? (state : Reading) (lexeme : Lexeme) : Option Reading :=
  match state.expected with
  | .value => begin? lexeme state.stack
  | .valueOrEnd =>
      if lexeme = .mark ']' then close? ']' state.stack
      else if lexeme = .mark ')' then close? ')' state.stack
      else begin? lexeme state.stack
  | .opening helper =>
      if lexeme = .mark '(' then
        some ⟨.application helper [] :: state.stack, .valueOrEnd⟩
      else none
  | .keyOrEnd =>
      match lexeme, state.stack with
      | .mark '\x7d', stack => close? '\x7d' stack
      | .text key, .dictionary entries :: stack =>
          some ⟨.entry entries key :: stack, .colon⟩
      | _, _ => none
  | .colon => if lexeme = .mark ':' then some ⟨state.stack, .value⟩ else none
  | .argumentOrEnd =>
      match lexeme, state.stack with
      | .mark ')', stack => close? ')' stack
      | .name name, .call function named :: stack =>
          if isArgumentName name then
            some ⟨.argument function named name :: stack, .equals⟩
          else none
      | .stars, .call function named :: stack =>
          some ⟨.unpacking function named :: stack, .value⟩
      | _, _ => none
  | .equals => if lexeme = .mark '=' then some ⟨state.stack, .value⟩ else none
  | .commaOrEnd =>
      match lexeme with
      | .mark sign =>
          if sign = ',' then separate? state.stack else close? sign state.stack
      | _ => none
  | .closing result =>
      if lexeme = .mark ')' then some ⟨[], .nothing result⟩ else none
  | .nothing _ => none

def steps? (state : Reading) (lexemes : List Lexeme) : Option Reading :=
  lexemes.foldlM step? state

end Reading

namespace Call

def ofLexemes? : List Lexeme → Option Call
  | .name function :: .mark '(' :: rest => do
      let final ← Reading.steps? ⟨[.call function []], .argumentOrEnd⟩ rest
      match final.expected with
      | .nothing result => some result
      | _ => none
  | _ => none

/-- Reads a text that is a call from its first character to its last. -/
def read? (text : String) : Option Call :=
  (Lexeme.lexFrom? [] text.toList).bind ofLexemes?

end Call

end Workflow.Program
