import MicroGo.Proofs.Scope.Marks

/-!
# Sentences and their names

The marks of a sentence say where it opens and closes scopes, and where it declares and uses names.
A scope is opened by a function, for its parameters together with its body; by every block inside
it; and by every conditional and every loop, as a whole.  A variable is declared behind its first
value, so that the value cannot refer to it.

With the marks in front of a sentence known, what the sentence stands for can be said part by part,
and without any state.  A name stands for the variable that its last open declaration has (`Binds`);
a declaration assigns to the variable whose number is the number of declarations in front of it.

The static rules that have nothing to do with the names of variables are said apart (`Proper`).
-/

namespace MicroGo
namespace Grammar

/-! ## Marks of sentences -/

mutual

/-- The marks of an operand. -/
def Operand.marks : {level : Nat} → Operand level → List Mark
  | _, .unary _ operand => operand.marks
  | _, .chain first rest => first.marks ++ rest.marks

def Links.marks : {level : Nat} → Links level → List Mark
  | _, .nil => []
  | _, .cons _ operand rest => operand.marks ++ rest.marks

def Primary.marks : Primary → List Mark
  | .num _ => []
  | .name text => [.use text]
  | .call _ args => args.marks
  | .paren inner => inner.marks

def Args.marks : Args → List Mark
  | .close => []
  | .last arg => arg.marks
  | .next arg rest => arg.marks ++ rest.marks

end

/-- The marks of a part that may be missing. -/
def optMarks {α : Type} (marks : α → List Mark) : Option α → List Mark
  | none => []
  | some part => marks part

/-- Marks in a scope of their own. -/
def enclosed (marks : List Mark) : List Mark :=
  .enter :: (marks ++ [.leave])

def Simple.marks (stmt : Simple) : List Mark :=
  stmt.left.marks ++ optMarks Operand.marks stmt.right

/-- The marks of a declaration.  The name is known only behind the value. -/
def Local.marks : Local → List Mark
  | typed name value => optMarks Operand.marks value ++ [.declare name]
  | inferred name value => value.marks ++ [.declare name]

def LoopHead.marks : LoopHead → List Mark
  | forever => []
  | .while cond => cond.marks
  | clauses init cond post =>
      optMarks Simple.marks init ++ (optMarks Operand.marks cond ++ optMarks Simple.marks post)

mutual

/-- The marks of a statement. -/
def Statement.marks : Statement → List Mark
  | .ret value => value.marks
  | .declare decl => decl.marks
  | .branch cases => cases.marks
  | .loop head body => enclosed (head.marks ++ enclosed body.marks)
  | .block body => enclosed body.marks
  | .simple stmt => stmt.marks

def Conditional.marks : Conditional → List Mark
  | .mk init cond body other =>
      enclosed (optMarks Simple.marks init ++ (cond.marks ++ (enclosed body.marks ++ other.marks)))

def Otherwise.marks : Otherwise → List Mark
  | .none => []
  | .elseIf cases => cases.marks
  | .elseBlock body => enclosed body.marks

def Body.marks : Body → List Mark
  | .close => []
  | .skip rest => rest.marks
  | .last stmt => stmt.marks
  | .next stmt rest => stmt.marks ++ rest.marks

end

/-- The names of parameters. -/
def Params.names : Params → List String
  | .close => []
  | .last name => [name]
  | .next name rest => name :: rest.names

def Params.marks (params : Params) : List Mark :=
  params.names.map .declare

/-- The marks of a function: one scope for its parameters and its body. -/
def Function.marks (f : Function) : List Mark :=
  enclosed (f.params.marks ++ f.body.marks)

/-! ## What sentences stand for -/

mutual

/-- The operand, behind the marks `past`, stands for the expression. -/
def Operand.Denotes : {level : Nat} → Operand level → (past : List Mark) → Expr → Prop
  | _, .unary signs operand, past, e =>
      ∃ e', operand.Denotes past e' ∧ e = Nat.repeat Parser.negate (signs.count .minus) e'
  | _, .chain first rest, past, e =>
      ∃ left, first.Denotes past left ∧ rest.Denotes (past ++ first.marks) left e

/-- The rest of a chain, behind an operand that stands for `left`, makes it stand for `e`. -/
def Links.Denotes : {level : Nat} → Links level → (past : List Mark) → (left e : Expr) → Prop
  | _, .nil, _, left, e => e = left
  | _, .cons op operand rest, past, left, e =>
      ∃ right, operand.Denotes past right ∧
        rest.Denotes (past ++ operand.marks) (op.combine left right) e

def Primary.Denotes : Primary → (past : List Mark) → Expr → Prop
  | .num text, _, e => ∃ value, Numeral.read? text = some value ∧ e = .num value
  | .name text, past, e => ∃ id, Binds past text id ∧ e = .var id
  | .call callee args, past, e => ∃ es, args.Denotes past es ∧ e = .call callee es
  | .paren inner, past, e => inner.Denotes past e

def Args.Denotes : Args → (past : List Mark) → List Expr → Prop
  | .close, _, es => es = []
  | .last arg, past, es => ∃ e, arg.Denotes past e ∧ es = [e]
  | .next arg rest, past, es =>
      ∃ e es', arg.Denotes past e ∧ rest.Denotes (past ++ arg.marks) es' ∧ es = e :: es'

end

/-- A part that may be missing stands for something that may be missing. -/
def OptDenotes {α β : Type} (denotes : α → List Mark → β → Prop) :
    Option α → (past : List Mark) → Option β → Prop
  | none, _, b => b = none
  | some part, past, b => ∃ b', denotes part past b' ∧ b = some b'

def Simple.Denotes (stmt : Simple) (past : List Mark) (s : Stmt) : Prop :=
  match stmt.right with
  | none => ∃ e, stmt.left.Denotes past e ∧ s = .expr e
  | some right =>
      ∃ id e, stmt.left.Denotes past (.var id) ∧ right.Denotes (past ++ stmt.left.marks) e ∧
        s = .assign id e

/-- A first value that may be missing stands for zero if it is. -/
def FirstValueDenotes : Option Expression → (past : List Mark) → Expr → Prop
  | none, _, e => e = .num 0
  | some value, past, e => value.Denotes past e

/-- A declaration stands for an assignment to the next variable. -/
def Local.Denotes : Local → (past : List Mark) → Stmt → Prop
  | typed _ value, past, s =>
      ∃ e, FirstValueDenotes value past e ∧
        s = .assign (declaredNames (past ++ optMarks Operand.marks value)).length e
  | inferred _ value, past, s =>
      ∃ e, value.Denotes past e ∧ s = .assign (declaredNames (past ++ value.marks)).length e

def LoopHead.Denotes : LoopHead → (past : List Mark) → Option Stmt × Option Expr × Option Stmt →
    Prop
  | forever, _, parts => parts = (none, none, none)
  | .while cond, past, parts => ∃ c, cond.Denotes past c ∧ parts = (none, some c, none)
  | clauses init cond post, past, parts =>
      ∃ i c p, OptDenotes Simple.Denotes init past i ∧
        OptDenotes Operand.Denotes cond (past ++ optMarks Simple.marks init) c ∧
        OptDenotes Simple.Denotes post
          (past ++ optMarks Simple.marks init ++ optMarks Operand.marks cond) p ∧
        parts = (i, c, p)

mutual

/-- The statement, behind the marks `past`, stands for the statement `s` of a program. -/
def Statement.Denotes : Statement → (past : List Mark) → (s : Stmt) → Prop
  | .ret value, past, s => ∃ e, value.Denotes past e ∧ s = .ret e
  | .declare decl, past, s => decl.Denotes past s
  | .branch cases, past, s => cases.Denotes past s
  | .loop head body, past, s =>
      ∃ i c p b, head.Denotes (past ++ [.enter]) (i, c, p) ∧
        body.Denotes (past ++ [.enter] ++ head.marks ++ [.enter]) b ∧ s = .loop i c p b
  | .block body, past, s => ∃ b, body.Denotes (past ++ [.enter]) b ∧ s = .block b
  | .simple stmt, past, s => stmt.Denotes past s

def Conditional.Denotes : Conditional → (past : List Mark) → (s : Stmt) → Prop
  | .mk init cond body other, past, s =>
      ∃ i c b o, OptDenotes Simple.Denotes init (past ++ [.enter]) i ∧
        cond.Denotes (past ++ [.enter] ++ optMarks Simple.marks init) c ∧
        body.Denotes (past ++ [.enter] ++ optMarks Simple.marks init ++ cond.marks ++ [.enter]) b ∧
        other.Denotes
          (past ++ [.enter] ++ optMarks Simple.marks init ++ cond.marks ++ enclosed body.marks) o ∧
        s = .branch i c b o

def Otherwise.Denotes : Otherwise → (past : List Mark) → (s : Option Stmt) → Prop
  | .none, _, s => s = .none
  | .elseIf cases, past, s => ∃ s', cases.Denotes past s' ∧ s = some s'
  | .elseBlock body, past, s => ∃ b, body.Denotes (past ++ [.enter]) b ∧ s = some (.block b)

def Body.Denotes : Body → (past : List Mark) → (ss : List Stmt) → Prop
  | .close, _, ss => ss = []
  | .skip rest, past, ss => rest.Denotes past ss
  | .last stmt, past, ss => ∃ s, stmt.Denotes past s ∧ ss = [s]
  | .next stmt rest, past, ss =>
      ∃ s ss', stmt.Denotes past s ∧ rest.Denotes (past ++ stmt.marks) ss' ∧ ss = s :: ss'

end

/-- **What a function stands for.**  Its variables are those that it declares, in the order of the
text and the parameters first; and each name in its body stands for the variable of its last open
declaration. -/
structure Function.Denotes (t : Function) (f : MicroGo.Function) : Prop where
  name : f.name = t.name
  params : f.params.map Variable.name = t.params.names
  vars : f.vars.map Variable.name = declaredNames t.marks
  body : t.body.Denotes (.enter :: t.params.marks) f.body

/-! ## The other rules -/

/-- The number of arguments. -/
def Args.count : Args → Nat
  | .close => 0
  | .last _ => 1
  | .next _ rest => rest.count + 1

mutual

/-- The operand is a name and nothing else, apart from parentheses and signs that change nothing. -/
def Operand.IsName : {level : Nat} → Operand level → Prop
  | _, .unary signs operand => .minus ∉ signs ∧ operand.IsName
  | _, .chain first .nil => first.IsName
  | _, .chain _ (.cons ..) => False

def Primary.IsName : Primary → Prop
  | .num _ => False
  | .name _ => True
  | .call .. => False
  | .paren inner => inner.IsName

end

mutual

/-- The numerals of an operand denote words, and its calls do not have too many arguments. -/
def Operand.Proper : {level : Nat} → Operand level → Prop
  | _, .unary _ operand => operand.Proper
  | _, .chain first rest => first.Proper ∧ rest.Proper

def Links.Proper : {level : Nat} → Links level → Prop
  | _, .nil => True
  | _, .cons _ operand rest => operand.Proper ∧ rest.Proper

def Primary.Proper : Primary → Prop
  | .num text => (Numeral.read? text).isSome
  | .name _ => True
  | .call _ args => args.Proper ∧ args.count ≤ 6
  | .paren inner => inner.Proper

def Args.Proper : Args → Prop
  | .close => True
  | .last arg => arg.Proper
  | .next arg rest => arg.Proper ∧ rest.Proper

end

/-- A part that may be missing is proper. -/
def OptProper {α : Type} (proper : α → Prop) : Option α → Prop
  | none => True
  | some part => proper part

/-- Only a variable can be assigned to. -/
def Simple.Proper (stmt : Simple) : Prop :=
  stmt.left.Proper ∧ OptProper (fun right => stmt.left.IsName ∧ right.Proper) stmt.right

def Local.Proper : Local → Prop
  | typed _ value => OptProper Operand.Proper value
  | inferred _ value => value.Proper

def LoopHead.Proper : LoopHead → Prop
  | forever => True
  | .while cond => cond.Proper
  | clauses init cond post =>
      OptProper Simple.Proper init ∧ OptProper Operand.Proper cond ∧ OptProper Simple.Proper post

mutual

/-- All that stands in a statement is proper. -/
def Statement.Proper : Statement → Prop
  | .ret value => value.Proper
  | .declare decl => decl.Proper
  | .branch cases => cases.Proper
  | .loop head body => head.Proper ∧ body.Proper
  | .block body => body.Proper
  | .simple stmt => stmt.Proper

def Conditional.Proper : Conditional → Prop
  | .mk init cond body other =>
      OptProper Simple.Proper init ∧ cond.Proper ∧ body.Proper ∧ other.Proper

def Otherwise.Proper : Otherwise → Prop
  | .none => True
  | .elseIf cases => cases.Proper
  | .elseBlock body => body.Proper

def Body.Proper : Body → Prop
  | .close => True
  | .skip rest => rest.Proper
  | .last stmt => stmt.Proper
  | .next stmt rest => stmt.Proper ∧ rest.Proper

end

/-- A function does not have too many parameters, and its body is proper. -/
def Function.Proper (f : Function) : Prop :=
  f.params.names.length ≤ 6 ∧ f.body.Proper

/-- **The static rules that are not about variables**: those of each function, and that no two
functions have one name. -/
structure Program.Proper (p : Program) : Prop where
  functions : ∀ f ∈ p.functions, f.Proper
  nodup : (p.functions.map Function.name).Nodup

end Grammar
end MicroGo
