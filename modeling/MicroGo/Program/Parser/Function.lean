import MicroGo.Program.Parser.Stmt

/-!
# Reading functions and programs

    program   := function ";" { function ";" }
    function  := "func" name "(" [ parameter { "," parameter } [ "," ] ] ")" [ type ] block
    parameter := name type

The parameters of a function and the statements of its body share one scope, so a local at the top
of the body cannot take the name of a parameter.  Functions are known by their names, and no two
functions of a program have the same one; calls are not checked against them.
-/

namespace MicroGo
namespace Parser

/-- One parameter, or the end of the parameters, which are counted. -/
def parameterStep (count : Nat) : Parser (Nat ⊕ Nat) := do
  if ← accept ")" then return .inr count
  else
    let name ← identifier
    let type ← typeName
    if count < maxArguments then
      let _ ← declare name type
      separator
      return .inl (count + 1)
    else reject .tooManyParameters name

/-- The parameters of a function, behind the opening parenthesis; their number. -/
def parameters : Parser Nat :=
  loop parameterStep 0

/-- The parameters, the result type and the body of a function, all in one scope. -/
def signatureAndBody : Parser (Nat × List Stmt) := inScope do
  let count ← parameters
  if ← isAt "\x7b" then return (count, ← body stmt)
  else
    let _ ← typeName
    return (count, ← body stmt)

/-- Forgets the variables of the function before. -/
def startFunction : Parser Unit :=
  modify fun s => { s with declared := [] }

/-- The function with the variables declared since it started. -/
def finishFunction (name : String) (paramCount : Nat) (body : List Stmt) : Parser Function := do
  let f := Function.ofDeclarations name paramCount (← get).declared body
  record (.parsedFunction name f.params.length f.locals.length f.frameSize)
  return f

/-- A function. -/
def function : Parser Function := do
  expect "func"
  let name ← identifier
  expect "("
  startFunction
  let (paramCount, body) ← signatureAndBody
  finishFunction name.text paramCount body

/-- One function and the semicolon after it, or the end of the program. -/
def functionStep (functions : List Function) : Parser (List Function ⊕ List Function) := do
  if ← atEnd then return .inr functions
  else
    let name ← following
    let f ← function
    if functions.any fun g => g.name = f.name then reject (.redeclaredFunction f.name) name
    else
      expect ";"
      return .inl (functions ++ [f])

/-- A program.  It has at least one function. -/
def program : Parser Program := do
  if ← atEnd then reject .emptyProgram (← current)
  else return ⟨← loop functionStep []⟩

end Parser

/-- The program that a list of tokens spells. -/
def Program.parse (tokens : List Token) : Traced Failure Program :=
  .ofResult Parser.State.log (Parser.program (.ofTokens tokens))

end MicroGo
