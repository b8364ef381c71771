import MicroGo.Position

/-!
# Tokens

A lexeme is a kind and a text; a token is a lexeme that stands somewhere.  The grammar looks at
lexemes only, and positions serve to say where something went wrong.

A kind and a text are independent of each other: the scanner gives every token a text that fits its
kind, but a list of tokens may come from elsewhere.
-/

namespace MicroGo

/-- The kinds of token: words and signs of the language itself, names, numerals, and the end of the
input. -/
inductive Lexeme.Kind where
  | reserved
  | ident
  | num
  | eof
deriving Repr, DecidableEq, Inhabited

/-- What a token says, wherever it stands. -/
structure Lexeme where
  kind : Lexeme.Kind
  text : String
deriving Repr, DecidableEq, Inhabited

/-- A lexeme at its place in the text. -/
structure Token extends Lexeme where
  pos : Position
deriving Repr, DecidableEq, Inhabited

namespace Lexeme

/-- The word or sign `text` of the language itself. -/
abbrev reserved (text : String) : Lexeme :=
  ⟨.reserved, text⟩

/-- The lexeme as a message names it.  The text is shown as it is. -/
def describe (lexeme : Lexeme) : String :=
  match lexeme.kind with
  | .eof => "end of input"
  | _ => "\"" ++ lexeme.text ++ "\""

/-- The words that are not names. -/
def keywords : List String :=
  ["return", "if", "else", "for", "func", "var"]

/-- A word of the text is a keyword or a name. -/
def ofWord (text : String) : Lexeme :=
  if text ∈ keywords then reserved text else ⟨.ident, text⟩

/-- A line that ends in this lexeme ends a statement, so that a `;` is inferred there. -/
def endsStatement (lexeme : Lexeme) : Bool :=
  match lexeme.kind with
  | .num | .ident => true
  | .reserved => lexeme.text ∈ [")", "]", "\x7d", "return"]
  | .eof => false

end Lexeme

namespace Token

/-- The end of the input at a given place. -/
def endOfInput (pos : Position) : Token :=
  ⟨⟨.eof, ""⟩, pos⟩

end Token
end MicroGo
