/-!
# Positions

A place in a text is a line and a column.  Lines count from one.  Columns count the bytes of the
line from one, so a character of several bytes moves the column by as many.

Both numbers are unbounded.  Where a program counts them in machine words this makes no difference
for the tokens of a text, whose lines and columns are at most one more than its number of bytes.  A
list of tokens that was put together by hand may hold any position, also one that no machine word
holds; results about all lists of tokens range over these too.
-/

namespace MicroGo

/-- A place in a text: a line, and a byte of that line. -/
structure Position where
  line : Nat
  column : Nat
deriving Repr, DecidableEq, Inhabited

namespace Position

/-- The first place of every text. -/
def start : Position :=
  ⟨1, 1⟩

/-- The start of the next line. -/
def nextLine (pos : Position) : Position :=
  ⟨pos.line + 1, 1⟩

/-- The number of bytes of a text. -/
def byteCount (text : List Char) : Nat :=
  text.foldr (fun c n => c.utf8Size + n) 0

/-- The place after `text`, which holds no line end. -/
def after (pos : Position) (text : List Char) : Position :=
  ⟨pos.line, pos.column + byteCount text⟩

end Position
end MicroGo
