import MicroGo.Program.Basic
import MicroGo.Program.Numeral
import MicroGo.Proofs.Grammar.Rules

/-!
# The shape of a derivation

A derivation says which program it is meant to be, up to the variables that its names stand for.
That much is its shape: the tree of a program in which a name is still a name and a numeral still
its text.  The shape is read off a derivation by one action for each rule.

* The operands of a chain are grouped to the left.
* A greater-than is a less-than with its operands exchanged.
* A minus sign subtracts from zero.  A plus sign and parentheses leave no trace.
* A declaration assigns its first value, or zero, to the name that it declares.

A program fits a shape if it is the same tree, with each numeral replaced by the word that it
denotes and each name by a variable of that name.
-/

namespace MicroGo
namespace Grammar

/-! ## Shapes -/

/-- The shape of an expression. -/
inductive ExprShape where
  | num (text : String)
  | name (text : String)
  | binary (op : BinaryOp) (lhs rhs : ExprShape)
  | call (callee : String) (args : List ExprShape)

/-- The shape of a statement. -/
inductive StmtShape where
  | expr (value : ExprShape)
  | assign (left value : ExprShape)
  | ret (value : ExprShape)
  | block (body : List StmtShape)
  | branch (init : Option StmtShape) (cond : ExprShape) (body : List StmtShape)
      (other : Option StmtShape)
  | loop (init : Option StmtShape) (cond : Option ExprShape) (post : Option StmtShape)
      (body : List StmtShape)

/-- The shape of a function. -/
structure FunctionShape where
  name : String
  params : List String
  body : List StmtShape

/-- What each nonterminal has for a shape. -/
def Shape : Nonterminal → Type
  | .program => List FunctionShape
  | .functionDecl => FunctionShape
  | .param => String
  | .block => List StmtShape
  | .statement | .varDecl | .ifStmt | .forStmt | .simpleStmt => StmtShape
  | .condition | .expr | .add | .mul | .unary | .primary | .funcCall => ExprShape

namespace ExprShape

/-- Zero. -/
def zero : ExprShape :=
  num "0"

/-- The negative of an expression. -/
def negate (e : ExprShape) : ExprShape :=
  binary .sub zero e

/-- An operand and the operators behind it, grouped to the left. -/
def chain (first : ExprShape) (rest : List ((ExprShape → ExprShape → ExprShape) × ExprShape)) :
    ExprShape :=
  rest.foldl (fun left link => link.1 left link.2) first

end ExprShape

/-! ## One action for each rule -/

/-- The members of a list with commas between them and perhaps one behind. -/
def members {α : Type} : Option ((α × List (Unit × α)) × Option Unit) → List α
  | none => []
  | some ((first, rest), _) => first :: rest.map Prod.snd

namespace Shape

/-- The tree that an operator of comparison makes. -/
def comparison : Unit ⊕ Unit ⊕ Unit ⊕ Unit ⊕ Unit ⊕ Unit → ExprShape → ExprShape → ExprShape
  | .inl _ => .binary .eq
  | .inr (.inl _) => .binary .ne
  | .inr (.inr (.inl _)) => .binary .lt
  | .inr (.inr (.inr (.inl _))) => .binary .le
  | .inr (.inr (.inr (.inr (.inl _)))) => fun left right => .binary .lt right left
  | .inr (.inr (.inr (.inr (.inr _)))) => fun left right => .binary .le right left

/-- The tree that one of two operators makes. -/
def either (op op' : BinaryOp) : Unit ⊕ Unit → ExprShape → ExprShape → ExprShape
  | .inl _ => .binary op
  | .inr _ => .binary op'

/-- `expr`, `add` and `mul`: operands and operators, grouped to the left. -/
def chain {ω : Type} (tree : ω → ExprShape → ExprShape → ExprShape) :
    ExprShape × List (ω × ExprShape) → ExprShape
  | (first, rest) => first.chain (rest.map fun link => (tree link.1, link.2))

/-- `unary`. -/
def unary : (Unit ⊕ Unit) × ExprShape ⊕ ExprShape → ExprShape
  | .inl (.inl _, e) => e
  | .inl (.inr _, e) => e.negate
  | .inr e => e

/-- `primary`. -/
def primary : String ⊕ String ⊕ ExprShape ⊕ (Unit × ExprShape) × Unit → ExprShape
  | .inl text => .num text
  | .inr (.inl text) => .name text
  | .inr (.inr (.inl e)) => e
  | .inr (.inr (.inr ((_, e), _))) => e

/-- `funcCall`. -/
def funcCall : ((String × Unit) × Option ((ExprShape × List (Unit × ExprShape)) × Option Unit)) ×
    Unit → ExprShape
  | (((callee, _), args), _) => .call callee (members args)

/-- `simpleStmt`. -/
def simpleStmt : ExprShape × Option (Unit × ExprShape) → StmtShape
  | (e, none) => .expr e
  | (left, some (_, value)) => .assign left value

/-- `varDecl`. -/
def varDecl : (Unit × String) × (Unit × Option (Unit × ExprShape) ⊕ Unit × ExprShape) → StmtShape
  | ((_, name), .inl (_, none)) => .assign (.name name) .zero
  | ((_, name), .inl (_, some (_, value))) => .assign (.name name) value
  | ((_, name), .inr (_, value)) => .assign (.name name) value

/-- `statement`. -/
def statement : (Unit × ExprShape) ⊕ StmtShape ⊕ StmtShape ⊕ StmtShape ⊕ List StmtShape ⊕
    StmtShape → StmtShape
  | .inl (_, value) => .ret value
  | .inr (.inl stmt) => stmt
  | .inr (.inr (.inl stmt)) => stmt
  | .inr (.inr (.inr (.inl stmt))) => stmt
  | .inr (.inr (.inr (.inr (.inl body)))) => .block body
  | .inr (.inr (.inr (.inr (.inr stmt)))) => stmt

/-- `block`: stray semicolons leave no trace. -/
def block : ((Unit × List (Unit ⊕ StmtShape × Unit)) × Option StmtShape) × Unit → List StmtShape
  | (((_, stmts), last), _) =>
      stmts.filterMap (Sum.elim (fun _ => none) fun stmt => some stmt.1) ++ last.toList

/-- `ifStmt`. -/
def ifStmt : (((Unit × Option (StmtShape × Unit)) × ExprShape) × List StmtShape) ×
    Option (Unit × (StmtShape ⊕ List StmtShape)) → StmtShape
  | ((((_, init), cond), body), other) =>
      .branch (init.map Prod.fst) cond body (other.map fun o => o.2.elim id .block)

/-- The parts of a loop's head that has three clauses. -/
abbrev Clauses :=
  (((Option StmtShape × Unit) × Option ExprShape) × Unit) × Option StmtShape

/-- `forStmt`. -/
def forStmt : (Unit × Option (ExprShape ⊕ Clauses)) × List StmtShape → StmtShape
  | ((_, none), body) => .loop none none none body
  | ((_, some (.inl cond)), body) => .loop none (some cond) none body
  | ((_, some (.inr ((((init, _), cond), _), post))), body) => .loop init cond post body

/-- `functionDecl`. -/
def functionDecl : (((((Unit × String) × Unit) ×
    Option ((String × List (Unit × String)) × Option Unit)) × Unit) × Option Unit) ×
    List StmtShape → FunctionShape
  | ((((((_, name), _), params), _), _), body) => ⟨name, members params, body⟩

/-- The shape that each rule gives to its parts. -/
def actions : Actions Shape
  | .program => fun (x : List (FunctionShape × Unit) × Unit) => x.1.map Prod.fst
  | .functionDecl => functionDecl
  | .param => fun (x : String × Unit) => x.1
  | .block => block
  | .statement => statement
  | .varDecl => varDecl
  | .ifStmt => ifStmt
  | .forStmt => forStmt
  | .condition => fun (e : ExprShape) => e
  | .simpleStmt => simpleStmt
  | .expr => chain comparison
  | .add => chain (either .add .sub)
  | .mul => chain (either .mul .div)
  | .unary => unary
  | .primary => primary
  | .funcCall => funcCall

end Shape

/-- **The shape of a derivation**: the functions of the program that it stands for. -/
def Derivation.shape (d : Derivation (.ref .program)) : List FunctionShape :=
  d.eval Shape.actions

/-! ## Programs that fit a shape -/

mutual

/-- The expression fits the shape, if `names` are the names of the variables. -/
def ExprShape.Fits (names : VarId → Option String) : ExprShape → Expr → Prop
  | .num text, .num value => Numeral.read? text = some value
  | .name text, .var id => names id = some text
  | .binary op lhs rhs, .binary op' lhs' rhs' =>
      op = op' ∧ ExprShape.Fits names lhs lhs' ∧ ExprShape.Fits names rhs rhs'
  | .call callee args, .call callee' args' => callee = callee' ∧ ExprShape.AllFit names args args'
  | _, _ => False

/-- The expressions fit the shapes, one by one. -/
def ExprShape.AllFit (names : VarId → Option String) : List ExprShape → List Expr → Prop
  | [], [] => True
  | shape :: shapes, e :: es => ExprShape.Fits names shape e ∧ ExprShape.AllFit names shapes es
  | _, _ => False

end

/-- An expression that may be missing fits a shape that may be missing. -/
def ExprShape.OptFits (names : VarId → Option String) : Option ExprShape → Option Expr → Prop
  | none, none => True
  | some shape, some e => shape.Fits names e
  | _, _ => False

mutual

/-- The statement fits the shape, if `names` are the names of the variables. -/
def StmtShape.Fits (names : VarId → Option String) : StmtShape → Stmt → Prop
  | .expr value, .expr value' => value.Fits names value'
  | .assign left value, .assign target value' =>
      left.Fits names (.var target) ∧ value.Fits names value'
  | .ret value, .ret value' => value.Fits names value'
  | .block body, .block body' => StmtShape.AllFit names body body'
  | .branch init cond body other, .branch init' cond' body' other' =>
      StmtShape.OptFits names init init' ∧ cond.Fits names cond' ∧
        StmtShape.AllFit names body body' ∧ StmtShape.OptFits names other other'
  | .loop init cond post body, .loop init' cond' post' body' =>
      StmtShape.OptFits names init init' ∧ ExprShape.OptFits names cond cond' ∧
        StmtShape.OptFits names post post' ∧ StmtShape.AllFit names body body'
  | _, _ => False

/-- The statements fit the shapes, one by one. -/
def StmtShape.AllFit (names : VarId → Option String) : List StmtShape → List Stmt → Prop
  | [], [] => True
  | shape :: shapes, s :: ss => StmtShape.Fits names shape s ∧ StmtShape.AllFit names shapes ss
  | _, _ => False

/-- A statement that may be missing fits a shape that may be missing. -/
def StmtShape.OptFits (names : VarId → Option String) : Option StmtShape → Option Stmt → Prop
  | none, none => True
  | some shape, some s => StmtShape.Fits names shape s
  | _, _ => False

end

/-- The names of the variables of a function. -/
def variableName (f : MicroGo.Function) (id : VarId) : Option String :=
  (f.find? id).map Variable.name

/-- **The function fits the shape**: it has the name and the parameters, and its body is the same
tree with variables of the function in place of their names. -/
structure FunctionShape.Fits (shape : FunctionShape) (f : MicroGo.Function) : Prop where
  name : f.name = shape.name
  params : f.params.map Variable.name = shape.params
  body : StmtShape.AllFit (variableName f) shape.body f.body

end Grammar
end MicroGo
