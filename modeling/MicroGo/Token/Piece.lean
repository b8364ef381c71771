import MicroGo.Token.Basic

/-!
# The pieces of a text

A text is cut into pieces from the left: runs of blanks, line ends, comments, lexemes, and
characters that begin none of these.  Each piece is as long as it can be, and the kinds are tried
in a fixed order: a `//` begins a comment before `/` is a sign, and `==` is one sign before `=` is.

Only ASCII letters, digits and signs begin a lexeme.  Any other character outside a comment is
foreign to the language, and stands as a piece of its own.
-/

namespace MicroGo

/-- A stretch of the text. -/
inductive Piece where
  | blank (text : List Char)
  | lineEnd
  | comment (text : List Char)
  | lexeme (lexeme : Lexeme)
  | foreign (c : Char)
deriving Repr, DecidableEq

namespace Piece

/-- The characters of a piece. -/
def chars : Piece → List Char
  | blank text => text
  | lineEnd => ['\n']
  | comment text => text
  | lexeme l => l.text.toList
  | foreign c => [c]

/-- Blanks separate lexemes and mean nothing else. -/
def isBlank (c : Char) : Bool :=
  c = ' ' || c = '\t' || c = '\r'

/-- A name begins with a letter or an underscore. -/
def isWordStart (c : Char) : Bool :=
  c.isAlpha || c = '_'

/-- A name goes on with letters, digits and underscores. -/
def isWordPart (c : Char) : Bool :=
  c.isAlphanum || c = '_'

/-- The ASCII characters that print and are neither letter, digit nor blank. -/
def isPunctuation (c : Char) : Bool :=
  '!' ≤ c && c ≤ '~' && !c.isAlphanum

/-- The first characters of the signs that end in `=` and are two characters long. -/
def beginsEquals (c : Char) : Bool :=
  c = '=' || c = '!' || c = '<' || c = '>'

/-- The longest run of characters of one class from the head `c` on, and what follows it. -/
def run (p : Char → Bool) (c : Char) (cs : List Char) : List Char × List Char :=
  (c :: cs.takeWhile p, cs.dropWhile p)

/-- A lexeme with the given characters. -/
def ofChars (kind : Lexeme.Kind) (text : List Char) : Piece :=
  lexeme ⟨kind, String.ofList text⟩

/-- The first piece of the text `c :: cs`, and the text after it. -/
def split (c : Char) (cs : List Char) : Piece × List Char :=
  if isBlank c then
    let (text, rest) := run isBlank c cs
    (blank text, rest)
  else if c = '\n' then (lineEnd, cs)
  else if c = '/' && cs.head? = some '/' then
    let (text, rest) := run (· ≠ '\n') c cs
    (comment text, rest)
  else if c.isDigit then
    let (text, rest) := run Char.isDigit c cs
    (ofChars .num text, rest)
  else if isWordStart c then
    let (text, rest) := run isWordPart c cs
    (lexeme (.ofWord (String.ofList text)), rest)
  else if beginsEquals c && cs.head? = some '=' then (ofChars .reserved [c, '='], cs.tail)
  else if isPunctuation c then (ofChars .reserved [c], cs)
  else (foreign c, cs)

theorem length_run_snd_le (p : Char → Bool) (c : Char) (cs : List Char) :
    (run p c cs).2.length ≤ cs.length :=
  (List.dropWhile_sublist p).length_le

/-- What follows the first piece is shorter than the text. -/
theorem length_split_snd_le (c : Char) (cs : List Char) :
    (split c cs).2.length ≤ cs.length := by
  have hrun := fun p => length_run_snd_le p c cs
  unfold split
  split
  · exact hrun _
  split
  · exact Nat.le_refl _
  split
  · exact hrun _
  split
  · exact hrun _
  split
  · exact hrun _
  split
  · exact (List.tail_sublist cs).length_le
  split
  · exact Nat.le_refl _
  · exact Nat.le_refl _

end Piece

/-- The pieces of a text, from left to right. -/
def pieces : List Char → List Piece
  | [] => []
  | c :: cs => (Piece.split c cs).1 :: pieces (Piece.split c cs).2
termination_by cs => cs.length
decreasing_by exact Nat.lt_succ_of_le (Piece.length_split_snd_le c cs)

end MicroGo
