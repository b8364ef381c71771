import MicroGo.Diagnostic
import MicroGo.Log
import MicroGo.Token.Piece

/-!
# From text to tokens

The pieces of a text are read from left to right.  Lexemes become tokens at the place where they
begin; blanks and comments only move the place; a foreign character ends the reading with a
complaint.

At the end of a line a `;` is inferred if the last token of that line ends a statement.  It stands
where the line ends, after blanks and a comment.  The end of the text is no line end, so nothing is
inferred there.
-/

namespace MicroGo

/-- A reading of a text in progress: the place reached, the tokens so far, and the log. -/
structure Scan where
  pos : Position := .start
  tokens : Array Token := #[]
  log : Array Event := #[]

namespace Scan

/-- The token after which a `;` is inferred if the line ends here: the last one, if it stands on
this line and ends a statement. -/
def unfinished? (s : Scan) : Option Token :=
  s.tokens.back?.filter fun last => last.pos.line = s.pos.line && last.endsStatement

/-- Moves past blanks or a comment. -/
def skip (text : List Char) (s : Scan) : Scan :=
  { s with pos := s.pos.after text }

/-- Takes a lexeme. -/
def take (lexeme : Lexeme) (s : Scan) : Scan :=
  { s with
    pos := s.pos.after lexeme.text.toList
    tokens := s.tokens.push ⟨lexeme, s.pos⟩ }

/-- Moves to the next line, inferring a `;` where one is due. -/
def endLine (s : Scan) : Scan :=
  match s.unfinished? with
  | none => { s with pos := s.pos.nextLine }
  | some last =>
      { pos := s.pos.nextLine
        tokens := s.tokens.push ⟨.reserved ";", s.pos⟩
        log := s.log.push (.inferredSemicolon s.pos last.text) }

/-- Closes the list of tokens with the end of input. -/
def finish (s : Scan) : Scan :=
  let tokens := s.tokens.push (.endOfInput s.pos)
  { s with tokens, log := s.log.push (.scanned tokens.size s.pos.line) }

/-- Reads one piece. -/
def read : Piece → EStateM Failure Scan Unit
  | .blank text => modify (skip text)
  | .lineEnd => modify endLine
  | .comment text => modify (skip text)
  | .lexeme lexeme => modify (take lexeme)
  | .foreign c => fun s => .error ⟨.foreignCharacter c, s.pos⟩ s

/-- Reads a text to its end. -/
def readAll (source : String) : EStateM Failure Scan (List Token) := do
  (pieces source.toList).forM read
  modify finish
  return (← get).tokens.toList

end Scan

/-- The tokens of a text, closed by the end of input. -/
def Token.scan (source : String) : Traced Failure (List Token) :=
  .ofResult Scan.log (Scan.readAll source {})

end MicroGo
