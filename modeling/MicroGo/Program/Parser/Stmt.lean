import MicroGo.Program.Parser.Expr

/-!
# Reading statements

    block       := "{" { ";" } [ statement { ";" { ";" } statement } { ";" } ] "}"
    statement   := "return" comparison | "var" declaration | "if" conditional | "for" loop
                 | block | simple
    simple      := comparison [ "=" comparison ]
    declaration := name ( type [ "=" comparison ] | "=" comparison )
    conditional := [ simple ";" ] comparison block [ "else" ( "if" conditional | block ) ]
    loop        := [ comparison | [ simple ] ";" [ comparison ] ";" [ simple ] ] block

A conditional and a loop open a scope for their head, and each block opens one for itself.  A
declaration is in force after its initial value, so `var x = x` speaks of an outer `x`.

The left side of an assignment is read as an expression and has to turn out to be a variable, so
parentheses and plus signs around it change nothing.

Statements nest through blocks and through `else if`, so they are built from a parser for the
statements inside, in the manner of expressions.
-/

namespace MicroGo
namespace Parser

/-- An expression, or an assignment to a variable. -/
def simple : Parser Stmt := do
  let t ← current
  let left ← expr
  if ← accept "=" then
    match left with
    | .var id => return .assign id (← expr)
    | _ => reject .assignmentToNonVariable t
  else return .expr left

/-- The declaration of a local variable, with its first value.  A variable without one starts at
zero. -/
def declaration : Parser Stmt := do
  let name ← identifier
  let (type, value) ←
    if ← accept "=" then
      pure (Ty.int, ← expr)
    else do
      let type ← typeName
      if ← accept "=" then pure (type, ← expr) else pure (type, .num 0)
  let id ← declare name type
  return .assign id value

/-- A statement as a condition.  Only an expression is one; `start` is the token the statement
begins with. -/
def condition (start : Token) : Stmt → Parser Expr
  | .expr e => return e
  | _ => reject .assignmentAsCondition start

/-- One statement of a block behind any number of semicolons, or the end of the block. -/
def bodyStep (stmt : Parser Stmt) (body : List Stmt) : Parser (List Stmt ⊕ List Stmt) := do
  if ← accept ";" then return .inl body
  else if ← accept "\x7d" then return .inr body
  else
    let next ← stmt
    if ← isAt "\x7d" then pure () else expect ";"
    return .inl (body ++ [next])

/-- The statements of a block, in the scope that is open. -/
def body (stmt : Parser Stmt) : Parser (List Stmt) := do
  expect "\x7b"
  loop (bodyStep stmt) []

/-- A block with a scope of its own. -/
def block (stmt : Parser Stmt) : Parser (List Stmt) :=
  inScope (body stmt)

/-- The head of a conditional: the condition, behind a statement and a semicolon or alone. -/
def branchHead : Parser (Option Stmt × Expr) := do
  let start ← current
  let first ← simple
  if ← accept ";" then return (some first, ← expr)
  else return (none, ← condition start first)

/-- The other case of a conditional. -/
def otherwise (stmt : Parser Stmt) : Parser (Option Stmt) := do
  if ← accept "else" then
    if ← isAt "if" then return some (← stmt)
    else return some (.block (← block stmt))
  else return none

/-- A conditional, behind its first word. -/
def branch (stmt : Parser Stmt) : Parser Stmt := inScope do
  let (init, cond) ← branchHead
  let body ← block stmt
  return .branch init cond body (← otherwise stmt)

/-- The part of a loop's head from its first semicolon on. -/
def loopClauses (init : Option Stmt) : Parser (Option Stmt × Option Expr × Option Stmt) := do
  expect ";"
  let cond ← if ← isAt ";" then pure none else pure (some (← expr))
  expect ";"
  let post ← if ← isAt "\x7b" then pure none else pure (some (← simple))
  return (init, cond, post)

/-- The head of a loop: nothing, a condition, or three clauses any of which may be missing. -/
def loopHead : Parser (Option Stmt × Option Expr × Option Stmt) := do
  if ← isAt "\x7b" then return (none, none, none)
  else if ← isAt ";" then loopClauses none
  else
    let start ← current
    let first ← simple
    if ← isAt ";" then loopClauses (some first)
    else return (none, some (← condition start first), none)

/-- A loop, behind its first word. -/
def repetition (stmt : Parser Stmt) : Parser Stmt := inScope do
  let (init, cond, post) ← loopHead
  return .loop init cond post (← block stmt)

/-- All statements, over a parser for the statements inside. -/
def statement (nested : Parser Stmt) : Parser Stmt := do
  if ← accept "return" then return .ret (← expr)
  else if ← accept "var" then declaration
  else if ← accept "if" then branch nested
  else if ← accept "for" then repetition nested
  else if ← isAt "\x7b" then return .block (← block nested)
  else simple

/-- Statements that nest less than `n` deep. -/
def stmtAt : (n : Nat) → Parser Stmt
  | 0 => exhausted
  | n + 1 => statement (stmtAt n)

/-- A statement. -/
def stmt : Parser Stmt :=
  fun s => stmtAt (s.ahead.length + 1) s

end Parser
end MicroGo
