import Workflow.Text.CharClass

/-!
# Pieces of a text

Cutting a text into words, into lines, and trimming blanks off its ends.  All
functions work on lists of characters and recurse on them, so that what they do
to a concatenation can be computed.
-/

namespace Workflow.Text

/-- A run of word characters in a text, with the text that follows it. -/
structure Word where
  letters : List Char
  rest : List Char
  deriving DecidableEq, Repr

/-- Closes the run collected so far (in reverse), if there is one. -/
def closeWord (reversed rest : List Char) : List Word :=
  if reversed.isEmpty then [] else [⟨reversed.reverse, rest⟩]

/-- The maximal runs of word characters, the first one extended by
`reversed`. -/
def wordsFrom (reversed : List Char) : List Char → List Word
  | [] => closeWord reversed []
  | c :: cs =>
      if isWordChar c then wordsFrom (c :: reversed) cs
      else closeWord reversed (c :: cs) ++ wordsFrom [] cs

/-- The maximal runs of word characters of a text, from left to right. -/
def words (text : List Char) : List Word :=
  wordsFrom [] text

def trimStart (text : List Char) : List Char :=
  text.dropWhile isBlank

def trimEnd (text : List Char) : List Char :=
  (text.reverse.dropWhile isBlank).reverse

def trim (text : List Char) : List Char :=
  trimEnd (trimStart text)

/-- Drops the carriage return that a line feed was preceded by. -/
def dropReturn (reversed : List Char) : List Char :=
  match reversed with
  | '\r' :: before => before.reverse
  | other => other.reverse

/-- The lines of a text, the first one extended by `reversed`. -/
def linesFrom (reversed : List Char) : List Char → List (List Char)
  | [] => if reversed.isEmpty then [] else [reversed.reverse]
  | '\n' :: cs => dropReturn reversed :: linesFrom [] cs
  | c :: cs => linesFrom (c :: reversed) cs

/-- The lines of a text, without their ends.  A line ends at a line feed, a
carriage return right before it belongs to the end, and a final line feed opens
no further line. -/
def lines (text : List Char) : List (List Char) :=
  linesFrom [] text

/-- The pieces of a text between separators; there is always one more than
there are separators. -/
def pieces (separator : Char) : List Char → List (List Char)
  | [] => [[]]
  | c :: rest =>
      if c = separator then [] :: pieces separator rest
      else
        match pieces separator rest with
        | [] => [[c]]
        | piece :: later => (c :: piece) :: later

/-- Whether `part` occurs in `text` as a contiguous piece. -/
def occursIn (part : List Char) : List Char → Bool
  | [] => part.isEmpty
  | c :: cs => part.isPrefixOf (c :: cs) || occursIn part cs

end Workflow.Text
