import MicroGo.Assembly.Expr

/-!
# Code for statements

The code of a statement leaves the operand stack as it finds it.  A conditional and a loop take a
number for their labels before any code inside them is emitted, so an outer statement has a lower
number than the statements inside it.
-/

namespace MicroGo
namespace Assembly
namespace Emit

/-- Evaluates a condition and jumps if it is zero. -/
def jumpUnless (f : Function) (cond : Expr) (target : Label) : Emit Unit := do
  expr f cond
  pop .rax
  instrs [.compareWord 0 .rax, .jumpEqual target]

/-- Evaluates the condition of a loop and leaves the loop if it is zero.  A missing condition holds
always. -/
def leaveUnless (f : Function) (cond : Option Expr) (target : Label) : Emit Unit :=
  match cond with
  | none => pure ()
  | some cond => jumpUnless f cond target

mutual

/-- Emits the code of a statement of the function `f`. -/
def stmt (f : Function) : Stmt → Emit Unit
  | .expr value => balanced f.name do
      expr f value
      pop .rax
  | .assign target value => balanced f.name do
      address f target
      expr f value
      pop .rdi
      pop .rax
      instr (.store .rdi .rax)
  | .ret value => balanced f.name do
      expr f value
      pop .rax
      instr (.jump (.exit f.name))
  | .block body => balanced f.name (stmts f body)
  | .branch init cond body other => balanced f.name do
      let id ← newLabel
      optStmt f init
      jumpUnless f cond (.otherwise id)
      stmts f body
      instr (.jump (.done id))
      label (.otherwise id)
      optStmt f other
      label (.done id)
  | .loop init cond post body => balanced f.name do
      let id ← newLabel
      optStmt f init
      label (.begin id)
      leaveUnless f cond (.done id)
      stmts f body
      optStmt f post
      instr (.jump (.begin id))
      label (.done id)

/-- Emits the code of statements, from first to last. -/
def stmts (f : Function) : List Stmt → Emit Unit
  | [] => pure ()
  | s :: ss => do
      stmt f s
      stmts f ss

/-- Emits the code of a statement that may be missing. -/
def optStmt (f : Function) : Option Stmt → Emit Unit
  | none => pure ()
  | some s => stmt f s

end

end Emit
end Assembly
end MicroGo
