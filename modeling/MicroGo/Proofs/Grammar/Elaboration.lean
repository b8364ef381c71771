import MicroGo.Proofs.Grammar.Tree

/-!
# The meaning of a sentence

A sentence may still break a static rule: a numeral may be too large, a name may be unknown or
declared twice, an assignment may have no variable on its left, a call may have too many
arguments.  `elaborate` turns a tree of the grammar into a program, or gives the first rule that
the tree breaks in the order of the text.

No token is looked at here, so what a tree means does not depend on how it was read.  The state is
`Names`: the open scopes, and the variables that the current function has declared.  Expressions
only look names up, so for them it is the open scopes that matter.
-/

namespace MicroGo
namespace Grammar

variable {α β : Type}

/-- What is known of names at a point of the text. -/
structure Names where
  /-- The open scopes. -/
  scopes : Scopes := []
  /-- The variables of the current function, in the order of their numbers. -/
  declared : List Declaration := []

/-- Elaboration gives a value and what is known of names after it, or the rule that is broken. -/
abbrev Elaboration := StateT Names (Except Complaint)

/-! ## Expressions -/

mutual

/-- The expression that an operand stands for. -/
def Operand.elaborate (scopes : Scopes) : {level : Nat} → Operand level → Except Complaint Expr
  | _, .unary signs operand => do
      return Nat.repeat Parser.negate (signs.count .minus) (← operand.elaborate scopes)
  | _, .chain first rest => do
      rest.elaborate scopes (← first.elaborate scopes)

/-- The expression that a chain stands for when `left` is the part of it that comes before. -/
def Links.elaborate (scopes : Scopes) : {level : Nat} → Links level → (left : Expr) →
    Except Complaint Expr
  | _, .nil, left => return left
  | _, .cons op operand rest, left => do
      rest.elaborate scopes (op.combine left (← operand.elaborate scopes))

/-- The expression that a primary stands for. -/
def Primary.elaborate (scopes : Scopes) : Primary → Except Complaint Expr
  | .num text =>
      match Numeral.read? text with
      | some value => .ok (.num value)
      | none => .error (.numeralOutOfRange text)
  | .name text =>
      match scopes.find? text with
      | some id => .ok (.var id)
      | none => .error (.undefinedVariable text)
  | .call callee args => do
      let es ← args.elaborate scopes
      if es.length ≤ maxArguments then return .call callee es
      else throw (.tooManyArguments callee es.length)
  | .paren inner => inner.elaborate scopes

/-- The expressions that arguments stand for. -/
def Args.elaborate (scopes : Scopes) : Args → Except Complaint (List Expr)
  | .close => return []
  | .last arg => return [← arg.elaborate scopes]
  | .next arg rest => return (← arg.elaborate scopes) :: (← rest.elaborate scopes)

end

theorem Primary.elaborate_of_find?_eq_some {scopes : Scopes} {text : String} {id : VarId}
    (h : scopes.find? text = some id) : (Primary.name text).elaborate scopes = .ok (.var id) := by
  rw [Primary.elaborate, h]

theorem Primary.elaborate_of_find?_eq_none {scopes : Scopes} {text : String}
    (h : scopes.find? text = none) :
    (Primary.name text).elaborate scopes = .error (.undefinedVariable text) := by
  rw [Primary.elaborate, h]

/-! ## Names -/

/-- Something that is found in the open scopes and leaves them as they are. -/
def lookup (x : Scopes → Except Complaint α) : Elaboration α := fun names =>
  (x names.scopes).map (·, names)

theorem lookup_bind (x : Scopes → Except Complaint α) (f : α → Scopes → Except Complaint β) :
    (lookup fun scopes => x scopes >>= fun a => f a scopes) =
      lookup x >>= fun a => lookup (f a) := by
  funext names
  show (x names.scopes >>= fun a => f a names.scopes).map (·, names) =
    ((x names.scopes).map (·, names) >>= fun r => lookup (f r.1) r.2)
  cases x names.scopes <;> rfl

theorem lookup_unary (signs : List Sign) (t : Primary) :
    (lookup fun scopes => (Operand.unary signs t).elaborate scopes) =
      (lookup (fun scopes => t.elaborate scopes) >>= fun e =>
        pure (Nat.repeat Parser.negate (signs.count .minus) e)) :=
  lookup_bind _ fun e _ => pure (Nat.repeat Parser.negate (signs.count .minus) e)

theorem lookup_chain {level : Nat} (first : Operand level) (rest : Links level) :
    (lookup fun scopes => (Operand.chain first rest).elaborate scopes) =
      (lookup (fun scopes => first.elaborate scopes) >>= fun e =>
        lookup fun scopes => rest.elaborate scopes e) :=
  lookup_bind _ fun e scopes => rest.elaborate scopes e

theorem lookup_links {level : Nat} (op : Operator level) (operand : Operand level)
    (rest : Links level) (left : Expr) :
    (lookup fun scopes => (Links.cons op operand rest).elaborate scopes left) =
      (lookup (fun scopes => operand.elaborate scopes) >>= fun e =>
        lookup fun scopes => rest.elaborate scopes (op.combine left e)) :=
  lookup_bind _ fun e scopes => rest.elaborate scopes (op.combine left e)

theorem lookup_call (callee : String) (args : Args) :
    (lookup fun scopes => (Primary.call callee args).elaborate scopes) =
      (lookup (fun scopes => args.elaborate scopes) >>= fun es =>
        if es.length ≤ maxArguments then pure (.call callee es)
        else throw (.tooManyArguments callee es.length)) := by
  funext names
  show Except.map (·, names) (Primary.elaborate names.scopes (.call callee args)) =
    (Except.map (·, names) (args.elaborate names.scopes) >>= fun r => _)
  rw [Primary.elaborate]
  cases args.elaborate names.scopes with
  | error c => rfl
  | ok es =>
      show Except.map (·, names) (if es.length ≤ maxArguments then _ else _) = StateT.run (ite ..) _
      split <;> rfl

/-- An expression, in the open scopes. -/
def Expression.resolve (e : Expression) : Elaboration Expr :=
  lookup fun scopes => e.elaborate scopes

/-- Declares a variable of the current function in the innermost scope. -/
def declare (name : String) : Elaboration VarId := fun names =>
  match names.scopes with
  | [] => .error (.noOpenScope name)
  | scope :: outer =>
      if scope.knows name then .error (.redeclaredVariable name)
      else
        .ok (names.declared.length,
          { scopes := ((name, names.declared.length) :: scope) :: outer
            declared := names.declared ++ [⟨name, .int⟩] })

theorem declare_of_nil {names : Names} (name : String) (h : names.scopes = []) :
    declare name names = .error (.noOpenScope name) := by
  rw [declare, h]

theorem declare_of_cons {names : Names} {scope : Scope} {outer : Scopes} (name : String)
    (h : names.scopes = scope :: outer) :
    declare name names =
      if scope.knows name then .error (.redeclaredVariable name)
      else
        .ok (names.declared.length,
          { scopes := ((name, names.declared.length) :: scope) :: outer
            declared := names.declared ++ [⟨name, .int⟩] }) := by
  rw [declare, h]

/-- Opens a scope. -/
def Names.enter (names : Names) : Names :=
  { names with scopes := [] :: names.scopes }

/-- Closes the innermost scope. -/
def Names.leave (names : Names) : Names :=
  { names with scopes := names.scopes.tail }

/-- Elaborates in a scope of its own. -/
def inScope (x : Elaboration α) : Elaboration α := fun names =>
  (x names.enter).map fun (a, names') => (a, names'.leave)

/-! ## Statements -/

/-- The statement that an expression or an assignment stands for. -/
def Simple.elaborate (t : Simple) : Elaboration Stmt := do
  let left ← t.left.resolve
  match t.right with
  | none => return .expr left
  | some right =>
      match left with
      | .var id => return .assign id (← right.resolve)
      | _ => throw .assignmentToNonVariable

/-- The first value of a variable that may be declared without one. -/
def firstValue : Option Expression → Elaboration Expr
  | none => return .num 0
  | some value => value.resolve

/-- The assignment that a declaration stands for. -/
def Local.elaborate : Local → Elaboration Stmt
  | .typed name value => do
      let e ← firstValue value
      return .assign (← declare name) e
  | .inferred name value => do
      let e ← value.resolve
      return .assign (← declare name) e

/-- Elaborates a part that may be missing. -/
def optionally (f : α → Elaboration β) : Option α → Elaboration (Option β)
  | none => return none
  | some a => return some (← f a)

/-- The parts that the head of a loop stands for. -/
def LoopHead.elaborate : LoopHead → Elaboration (Option Stmt × Option Expr × Option Stmt)
  | forever => return (none, none, none)
  | .while cond => return (none, some (← cond.resolve), none)
  | clauses init cond post => do
      let i ← optionally Simple.elaborate init
      let c ← optionally Expression.resolve cond
      let p ← optionally Simple.elaborate post
      return (i, c, p)

mutual

/-- The statement that a statement of the grammar stands for. -/
def Statement.elaborate : Statement → Elaboration Stmt
  | .ret value => return .ret (← value.resolve)
  | .declare decl => decl.elaborate
  | .branch cases => cases.elaborate
  | .loop head body => inScope do
      let (init, cond, post) ← head.elaborate
      return .loop init cond post (← inScope body.elaborate)
  | .block body => return .block (← inScope body.elaborate)
  | .simple stmt => stmt.elaborate

/-- The statement that a conditional stands for. -/
def Conditional.elaborate : Conditional → Elaboration Stmt
  | .mk init cond body other => inScope do
      let i ← optionally Simple.elaborate init
      let c ← cond.resolve
      let b ← inScope body.elaborate
      return .branch i c b (← other.elaborate)

/-- The statement that the other case of a conditional stands for. -/
def Otherwise.elaborate : Otherwise → Elaboration (Option Stmt)
  | .none => return none
  | .elseIf cases => return some (← cases.elaborate)
  | .elseBlock body => return some (.block (← inScope body.elaborate))

/-- The statements that those of a block stand for. -/
def Body.elaborate : Body → Elaboration (List Stmt)
  | .close => return []
  | .skip rest => rest.elaborate
  | .last stmt => return [← stmt.elaborate]
  | .next stmt rest => return (← stmt.elaborate) :: (← rest.elaborate)

end

/-! ## Functions and programs -/

/-- Declares a parameter behind `count` others. -/
def parameter (count : Nat) (name : String) : Elaboration Nat := do
  if count < maxArguments then
    let _ ← declare name
    return count + 1
  else throw .tooManyParameters

/-- Declares parameters behind `count` others, and gives their number. -/
def Params.elaborate (count : Nat) : Params → Elaboration Nat
  | .close => return count
  | .last name => parameter count name
  | .next name rest => do rest.elaborate (← parameter count name)

/-- The number of parameters and the body of a function, in one scope. -/
def Function.scoped (f : Function) : Elaboration (Nat × List Stmt) := inScope do
  let count ← f.params.elaborate 0
  return (count, ← f.body.elaborate)

/-- The function that a function of the grammar stands for. -/
def Function.elaborate (f : Function) : Elaboration MicroGo.Function := fun names => do
  let ((count, body), after) ← f.scoped { names with declared := [] }
  return (.ofDeclarations f.name count after.declared body, after)

/-- The functions that those of the grammar stand for, behind functions already done. -/
def functionsElaborate (done : List MicroGo.Function) : List Function →
    Elaboration (List MicroGo.Function)
  | [] => return done
  | f :: fs => do
      let g ← f.elaborate
      if done.any fun g' => g'.name = g.name then throw (.redeclaredFunction g.name)
      else functionsElaborate (done ++ [g]) fs

/-- The program that a program of the grammar stands for. -/
def Program.elaborate (p : Program) : Except Complaint MicroGo.Program := do
  let (functions, _) ← functionsElaborate [] p.functions {}
  return ⟨functions⟩

end Grammar
end MicroGo
