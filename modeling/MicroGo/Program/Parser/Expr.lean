import MicroGo.Program.Numeral
import MicroGo.Program.Parser.Basic

/-!
# Reading expressions

    comparison := sum { ( "==" | "!=" | "<" | "<=" | ">" | ">=" ) sum }
    sum        := product { ( "+" | "-" ) product }
    product    := unary { ( "*" | "/" ) unary }
    unary      := { "+" | "-" } primary
    primary    := "(" comparison ")" | numeral | name | call
    call       := name "(" [ comparison { "," comparison } [ "," ] ] ")"

Operators of one level group to the left.  A greater-than is read as the less-than with its
operands exchanged, a minus sign as a subtraction from zero, and a plus sign as nothing.

Expressions nest through `primary` alone, so the levels are built from a parser for the expressions
inside.  `exprAt n` reads expressions whose brackets and calls nest less than `n` deep, and the
tokens ahead bound the depth.
-/

namespace MicroGo
namespace Parser

/-- The operators of one level, each with the tree that it makes of its operands. -/
abbrev Operators := List (String × (Expr → Expr → Expr))

/-- The operators that compare. -/
def comparisons : Operators :=
  [("==", .binary .eq), ("!=", .binary .ne), ("<", .binary .lt), ("<=", .binary .le),
    (">", fun l r => .binary .lt r l), (">=", fun l r => .binary .le r l)]

/-- The operators that add. -/
def sums : Operators :=
  [("+", .binary .add), ("-", .binary .sub)]

/-- The operators that multiply. -/
def products : Operators :=
  [("*", .binary .mul), ("/", .binary .div)]

/-- The operator that a lexeme is. -/
def Operators.ofLexeme? (operators : Operators) (lexeme : Lexeme) : Option (Expr → Expr → Expr) :=
  if lexeme.kind = .reserved then operators.lookup lexeme.text else none

/-- One operator and the operand after it, or the end of a chain. -/
def chainStep (operators : Operators) (operand : Parser Expr) (left : Expr) :
    Parser (Expr ⊕ Expr) := do
  match ← take? operators.ofLexeme? with
  | none => return .inr left
  | some combine => return .inl (combine left (← operand))

/-- Operands joined by the operators of one level, grouped to the left. -/
def chain (operators : Operators) (operand : Parser Expr) : Parser Expr := do
  let first ← operand
  loop (chainStep operators operand) first

/-- The negative of an expression. -/
def negate (e : Expr) : Expr :=
  .binary .sub (.num 0) e

/-- One sign, or the end of the signs; minus signs are counted. -/
def signStep (minuses : Nat) : Parser (Nat ⊕ Nat) := do
  if ← accept "+" then return .inl minuses
  else if ← accept "-" then return .inl (minuses + 1)
  else return .inr minuses

/-- An operand behind any number of signs. -/
def unary (operand : Parser Expr) : Parser Expr := do
  let minuses ← loop signStep 0
  let e ← operand
  return Nat.repeat negate minuses e

/-- A comma, unless the list in parentheses ends here. -/
def separator : Parser Unit := do
  if ← isAt ")" then pure () else expect ","

/-- One argument, or the end of the arguments. -/
def argumentStep (nested : Parser Expr) (args : List Expr) : Parser (List Expr ⊕ List Expr) := do
  if ← accept ")" then return .inr args
  else
    let arg ← nested
    separator
    return .inl (args ++ [arg])

/-- A call. -/
def call (nested : Parser Expr) : Parser Expr := do
  let callee ← identifier
  expect "("
  let args ← loop (argumentStep nested) []
  if args.length ≤ maxArguments then return .call callee.text args
  else reject (.tooManyArguments callee.text args.length) callee

/-- A numeral. -/
def numeral : Parser Expr := do
  let t ← current
  match ← take? fun l => Numeral.read? l.text with
  | some value => return .num value
  | none => reject (.numeralOutOfRange t.text) t

/-- A variable. -/
def variableUse : Parser Expr := do
  let name ← identifier
  match ← resolve name.text with
  | some id => return .var id
  | none => reject (.undefinedVariable name.text) name

/-- An expression that no operator and no sign stands in.  A name is called when the text after it
is an opening parenthesis. -/
def primary (nested : Parser Expr) : Parser Expr := do
  if ← accept "(" then
    let e ← nested
    expect ")"
    return e
  else
    match (← current).kind with
    | .num => numeral
    | .ident => if (← following).text = "(" then call nested else variableUse
    | _ => failExpecting .expression

/-- All levels, over a parser for the expressions inside parentheses. -/
def comparison (nested : Parser Expr) : Parser Expr :=
  chain comparisons (chain sums (chain products (unary (primary nested))))

/-- Expressions that nest less than `n` deep. -/
def exprAt : (n : Nat) → Parser Expr
  | 0 => exhausted
  | n + 1 => comparison (exprAt n)

/-- An expression. -/
def expr : Parser Expr :=
  fun s => exprAt (s.ahead.length + 1) s

end Parser
end MicroGo
