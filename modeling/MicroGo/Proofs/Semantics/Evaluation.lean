import Mathlib.Logic.Function.Basic
import MicroGo.Program.Frame

/-!
# What a program means

The meaning of a function is what its body does to the values of its variables.  Expressions have
values, which are signed words of 64 bits: sums, differences and products wrap around, quotients
are taken toward zero, and a division that has no quotient is a fault.  A comparison is one or
zero, and zero counts as false.

## Calls

What a call does is not part of the program.  It is given from outside, by a `Callee`: from the
name and the arguments, and from the state of the world, a call gives a value and a new state of
the world.  A fixed oracle for the values is the case in which the world has one state.

## Loops

A loop may go on for ever, so statements are executed with a bound on the number of rounds of each
loop.  A run that meets the bound is `unfinished`, which is not an outcome but the lack of one.
-/

namespace MicroGo

/-- What calls do, from the name of the callee and the arguments: the value, and the world
afterwards. -/
abbrev Callee (σ : Type) := String → List Int64 → σ → Int64 × σ

/-- The callee that answers from a table and leaves no trace. -/
def Callee.ofOracle (oracle : String → List Int64 → Int64) : Callee Unit :=
  fun name args world => (oracle name args, world)

/-- The values of the variables of a function. -/
abbrev Env := VarId → Int64

variable {σ : Type}

/-! ## Expressions -/

/-- A truth value as a word. -/
def truthValue (b : Bool) : Int64 :=
  if b then 1 else 0

/-- The quotient of two words, taken toward zero. -/
def quotient (a b : Int64) : Except DivisionFault Int64 :=
  if b = 0 then .error .zeroDivisor
  else if a = Int64.minValue ∧ b = -1 then .error .overflow
  else .ok (a / b)

/-- The value of an operator. -/
def BinaryOp.apply : BinaryOp → Int64 → Int64 → Except DivisionFault Int64
  | .add, a, b => .ok (a + b)
  | .sub, a, b => .ok (a - b)
  | .mul, a, b => .ok (a * b)
  | .div, a, b => quotient a b
  | .eq, a, b => .ok (truthValue (a = b))
  | .ne, a, b => .ok (truthValue (a ≠ b))
  | .lt, a, b => .ok (truthValue (a < b))
  | .le, a, b => .ok (truthValue (a ≤ b))

mutual

/-- The value of an expression.  Operands and arguments are evaluated from left to right. -/
def Expr.eval (callee : Callee σ) (env : Env) : Expr → EStateM DivisionFault σ Int64
  | .num value => return value
  | .var id => return env id
  | .binary op lhs rhs => do
      let a ← Expr.eval callee env lhs
      let b ← Expr.eval callee env rhs
      match op.apply a b with
      | .ok value => return value
      | .error fault => throw fault
  | .call name args => do
      let values ← Expr.evals callee env args
      modifyGet (callee name values)

/-- The values of expressions. -/
def Expr.evals (callee : Callee σ) (env : Env) : List Expr → EStateM DivisionFault σ (List Int64)
  | [] => return []
  | e :: es => do
      let value ← Expr.eval callee env e
      let values ← Expr.evals callee env es
      return value :: values

end

/-! ## Statements -/

/-- The values of the variables, and the world. -/
structure Store (σ : Type) where
  env : Env
  world : σ

/-- The store with a new value for one variable. -/
def Store.assign (s : Store σ) (id : VarId) (value : Int64) : Store σ :=
  { s with env := Function.update s.env id value }

/-- Why a run breaks off. -/
inductive Break where
  /-- A division had no quotient. -/
  | fault (fault : DivisionFault)
  /-- A loop was still going on after as many rounds as it was allowed. -/
  | unfinished
deriving DecidableEq

/-- How a statement ends: control goes on behind it, or the function returns. -/
inductive Completion where
  | normal
  | returned (value : Int64)
deriving DecidableEq

/-- A run changes the store, and breaks off or ends. -/
abbrev Exec (σ : Type) := EStateM Break (Store σ)

namespace Exec

/-- One run after another, unless the first returns. -/
def andThen (first next : Exec σ Completion) : Exec σ Completion := do
  match ← first with
  | .normal => next
  | .returned value => return .returned value

/-- Repeats `round` while `test` holds, for less than `rounds` rounds. -/
def repeatWhile (test : Exec σ Bool) (round : Exec σ Completion) :
    (rounds : Nat) → Exec σ Completion
  | 0 => throw .unfinished
  | rounds + 1 => do
      if ← test then andThen round (repeatWhile test round rounds)
      else return .normal

/-- The value of an expression in the store. -/
def value (callee : Callee σ) (e : Expr) : Exec σ Int64 := fun s =>
  match e.eval callee s.env s.world with
  | .ok value world => .ok value { s with world }
  | .error fault world => .error (.fault fault) { s with world }

/-- Whether a condition holds.  A missing condition holds. -/
def holds (callee : Callee σ) : Option Expr → Exec σ Bool
  | none => return true
  | some cond => do return (← value callee cond) ≠ 0

end Exec

mutual

/-- Executes a statement, each loop in it for less than `rounds` rounds. -/
def Stmt.exec (callee : Callee σ) (rounds : Nat) : Stmt → Exec σ Completion
  | .expr value => do
      let _ ← Exec.value callee value
      return .normal
  | .assign target value => do
      let v ← Exec.value callee value
      modify fun s => s.assign target v
      return .normal
  | .ret value => do return .returned (← Exec.value callee value)
  | .block body => Stmt.execs callee rounds body
  | .branch init cond body other =>
      Exec.andThen (Stmt.optExec callee rounds init) do
        if ← Exec.holds callee (some cond) then Stmt.execs callee rounds body
        else Stmt.optExec callee rounds other
  | .loop init cond post body =>
      Exec.andThen (Stmt.optExec callee rounds init)
        (Exec.repeatWhile (Exec.holds callee cond)
          (Exec.andThen (Stmt.execs callee rounds body) (Stmt.optExec callee rounds post)) rounds)

/-- Executes statements, up to one that returns. -/
def Stmt.execs (callee : Callee σ) (rounds : Nat) : List Stmt → Exec σ Completion
  | [] => return .normal
  | s :: ss => Exec.andThen (Stmt.exec callee rounds s) (Stmt.execs callee rounds ss)

/-- Executes a statement that may be missing. -/
def Stmt.optExec (callee : Callee σ) (rounds : Nat) : Option Stmt → Exec σ Completion
  | none => return .normal
  | some s => Stmt.exec callee rounds s

end

/-! ## Outcomes -/

/-- **What is known of a run**: it gives a value such that `good`, or breaks off such that `bad`. -/
def Outcome {ε τ α : Type} (good : α → τ → Prop) (bad : ε → τ → Prop) :
    EStateM.Result ε τ α → Prop
  | .ok a s => good a s
  | .error e s => bad e s

section

variable {ε τ α β : Type} {good good' : α → τ → Prop} {bad bad' : ε → τ → Prop}

instance [∀ a s, Decidable (good a s)] [∀ e s, Decidable (bad e s)] :
    (r : EStateM.Result ε τ α) → Decidable (Outcome good bad r)
  | .ok a s => inferInstanceAs (Decidable (good a s))
  | .error e s => inferInstanceAs (Decidable (bad e s))

theorem Outcome.imp {r : EStateM.Result ε τ α} (h : Outcome good bad r)
    (hgood : ∀ a s, good a s → good' a s) (hbad : ∀ e s, bad e s → bad' e s) :
    Outcome good' bad' r := by
  cases r with
  | ok a s => exact hgood a s h
  | error e s => exact hbad e s h

/-- A run after another: what is known of the second is known of every end of the first. -/
theorem outcome_bind {good : β → τ → Prop} (x : EStateM ε τ α) (next : α → EStateM ε τ β) (s : τ) :
    Outcome good bad ((x >>= next) s) ↔
      Outcome (fun a t => Outcome good bad (next a t)) bad (x s) := by
  show Outcome good bad (EStateM.bind x next s) ↔ _
  unfold EStateM.bind
  cases x s with
  | ok a t => rfl
  | error e t => rfl

theorem outcome_modifyGet (g : τ → α × τ) (s : τ) :
    Outcome good bad ((modifyGet g : EStateM ε τ α) s) ↔ good (g s).1 (g s).2 :=
  Iff.rfl

end

/-! ## Functions -/

namespace Function

/-- The values of the variables where a function starts: those of the parameters are the arguments,
and the others are `locals`. -/
def bind (args : List Int64) (locals : Env) : Env :=
  fun id => args.getD id (locals id)

/-- Runs the body of a function.  A body that runs off its end returns zero. -/
def run (callee : Callee σ) (rounds : Nat) (f : Function) : Exec σ Int64 := do
  match ← Stmt.execs callee rounds f.body with
  | .normal => return 0
  | .returned value => return value

end Function
end MicroGo
