/-!
# Programs

The tree of a program after its names have been resolved.  A variable is a number, its place among
the parameters and locals of the function it belongs to, so two variables of one name in different
scopes are different numbers.  Operators that differ only in the order of their operands are one
operator: there is no "greater than".

Every value is a signed word of 64 bits.
-/

namespace MicroGo

/-- The types of the language. -/
inductive Ty where
  | int
deriving Repr, DecidableEq, Inhabited

namespace Ty

/-- The type with a given name. -/
def ofName? (name : String) : Option Ty :=
  if name = "int" then some int else none

/-- The number of bytes of a value. -/
def size : Ty → Nat
  | int => 8

end Ty

/-- The number of a variable among the parameters and then the locals of its function. -/
abbrev VarId := Nat

/-- The most parameters of a function, and the most arguments of a call. -/
def maxArguments : Nat :=
  6

/-- The operators on two words.  A comparison gives one or zero. -/
inductive BinaryOp where
  | add
  | sub
  | mul
  | div
  | eq
  | ne
  | lt
  | le
deriving Repr, DecidableEq

/-- Expressions. -/
inductive Expr where
  | num (value : Int64)
  | var (id : VarId)
  | binary (op : BinaryOp) (lhs rhs : Expr)
  | call (callee : String) (args : List Expr)
deriving Repr

/-- Statements.  A conditional may have a statement before its condition and a statement for the
other case; a loop may lack each of the three parts of its head, and one without a condition ends
only by a return. -/
inductive Stmt where
  | expr (value : Expr)
  | assign (target : VarId) (value : Expr)
  | ret (value : Expr)
  | block (body : List Stmt)
  | branch (init : Option Stmt) (cond : Expr) (body : List Stmt) (other : Option Stmt)
  | loop (init : Option Stmt) (cond : Option Expr) (post : Option Stmt) (body : List Stmt)
deriving Repr

/-- A variable with its slot: it lies `offset` bytes below the frame pointer. -/
structure Variable where
  name : String
  type : Ty
  offset : Int
deriving Repr, DecidableEq

/-- A function.  Its variables are the parameters followed by the locals, in the order in which
they are declared. -/
structure Function where
  name : String
  params : List Variable
  locals : List Variable
  body : List Stmt
  frameSize : Int
deriving Repr

namespace Function

/-- The parameters and then the locals of a function. -/
def vars (f : Function) : List Variable :=
  f.params ++ f.locals

/-- The variable with a given number: a parameter, or else a local. -/
def find? (f : Function) (id : VarId) : Option Variable :=
  if id < f.params.length then f.params[id]? else f.locals[id - f.params.length]?

theorem find?_eq_getElem? (f : Function) (id : VarId) : f.find? id = f.vars[id]? :=
  List.getElem?_append.symm

end Function

/-- A program: its functions in the order of the text. -/
structure Program where
  functions : List Function
deriving Repr

end MicroGo
