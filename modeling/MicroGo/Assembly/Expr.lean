import MicroGo.Assembly.Emission

/-!
# Code for expressions

The code of an expression leaves its value on the operand stack, on top of what was there.  An
operator takes its two operands from the stack, the right one first, and a call takes its arguments
into the argument registers, the last one first.

## Alignment

The stack pointer has to be a multiple of sixteen where a function is called.  Above the operands
of the function at hand lie its return address, the saved registers and the frame pointer, and a
frame whose size is a multiple of sixteen.  So the call needs eight bytes of padding exactly when
the number of words other than the frame is odd.
-/

namespace MicroGo
namespace Assembly

/-- The instructions that apply an operator to `rax` and `rdi` and leave the result in `rax`. -/
def operation : BinaryOp → List Instr
  | .add => [.add .rdi .rax]
  | .sub => [.sub .rdi .rax]
  | .mul => [.mul .rdi .rax]
  | .div => [.signExtend, .div .rdi]
  | .eq => comparison .equal
  | .ne => comparison .notEqual
  | .lt => comparison .less
  | .le => comparison .lessOrEqual
where
  /-- One if `rax` stands in a relation to `rdi`, and zero otherwise. -/
  comparison (condition : Condition) : List Instr :=
    [.compare .rdi .rax, .setByte condition, .extendByte]

namespace Emit

/-- Pushes the address of a variable. -/
def address (f : Function) (id : VarId) : Emit Unit :=
  match f.find? id with
  | none => throw (.unknownVariable id f.name)
  | some v => do
      instr (.slotAddress v.offset .rax)
      push .rax

/-- A call needs padding when this many operands lie on the stack. -/
def needsPadding (depth : Nat) : Bool :=
  (1 + savedRegs.length + 1 + depth) % 2 = 1

/-- The call itself, once the arguments are in their registers. -/
def callAligned (callee : String) : Emit Unit := do
  let padded := needsPadding (← get).depth
  if padded then instr (.subWord 8 .rsp) else pure ()
  instrs [.moveWord 0 .rax, .call callee]
  if padded then instr (.addWord 8 .rsp) else pure ()

mutual

/-- Emits the code of an expression of the function `f`. -/
def expr (f : Function) : Expr → Emit Unit
  | .num value => do
      instr (.moveWord value .rax)
      push .rax
  | .var id => do
      address f id
      pop .rax
      instr (.load .rax .rax)
      push .rax
  | .binary op lhs rhs => do
      expr f lhs
      expr f rhs
      pop .rdi
      pop .rax
      instrs (operation op)
      push .rax
  | .call callee args => do
      if args.length ≤ argumentRegs.length then
        exprs f args
        (argumentRegs.take args.length).reverse.forM pop
        callAligned callee
        push .rax
      else throw (.tooManyArguments callee args.length)

/-- Emits the code of expressions, from left to right. -/
def exprs (f : Function) : List Expr → Emit Unit
  | [] => pure ()
  | e :: es => do
      expr f e
      exprs f es

end

end Emit
end Assembly
end MicroGo
