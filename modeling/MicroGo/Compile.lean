import MicroGo.Assembly.Program
import MicroGo.Program.Parser.Function
import MicroGo.Token.Scan

/-!
# From text to assembly

A text is closed by a line end, cut into tokens, read as a program, and turned into assembly.  The
first stage that fails gives the answer.
-/

namespace MicroGo

/-- The text ends in a line end. -/
def endsInLineEnd (source : String) : Bool :=
  source.toList.getLast? = some '\n'

/-- The text with a line end behind its last line, so that a `;` can be inferred there too. -/
def withLineEnd (source : String) : String :=
  if endsInLineEnd source then source else source ++ "\n"

/-- The tokens of a text as it stands. -/
def tokensOf (source : String) : Traced Refusal (List Token) :=
  (Token.scan source).mapError fun failure => .rejected (failure.diagnostic source)

/-- The program that a list of tokens spells, which were made from `source`. -/
def programOf (source : String) (tokens : List Token) : Traced Refusal Program :=
  (Program.parse tokens).mapError fun failure => .rejected (failure.diagnostic source)

/-- The assembly text of a program. -/
def assemblyOf (program : Program) : Traced Refusal String := do
  let lines ← program.assemble.mapError fun fault => .internal fault.message
  return Assembly.render lines

/-- The program that a text spells as it stands. -/
def parse (source : String) : Traced Refusal Program := do
  programOf source (← tokensOf source)

/-- The assembly text for a program text. -/
def compile (source : String) : Traced Refusal String := do
  assemblyOf (← parse (withLineEnd source))

end MicroGo
