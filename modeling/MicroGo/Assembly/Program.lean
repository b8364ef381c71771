import MicroGo.Assembly.Stmt

/-!
# Code for functions and programs

A function saves the registers that its caller relies on, sets up its frame, copies its parameters
from their registers into their slots, and runs its body.  Every return jumps to the end, where the
frame is given up and the registers are restored; a body that runs off its end returns zero.

Only as many parameters are copied as there are argument registers.
-/

namespace MicroGo
namespace Assembly
namespace Emit

/-- The start of a function, up to its parameters. -/
def prologue (f : Function) : Emit Unit := do
  line (.global f.name)
  label (.entry f.name)
  instrs (savedRegs.map .push)
  instrs [.push .rbp, .move .rsp .rbp]
  if 0 < f.frameSize then instr (.subWord f.frameSize .rsp) else pure ()

/-- Copies the parameters into their slots. -/
def parameters (f : Function) : Emit Unit :=
  instrs ((f.params.zip argumentRegs).map fun p => .storeSlot p.2 p.1.offset)

/-- The end of a function, where every return leads. -/
def epilogue (f : Function) : Emit Unit := do
  instr (.moveWord 0 .rax)
  label (.exit f.name)
  instrs [.move .rbp .rsp, .pop .rbp]
  instrs (savedRegs.reverse.map .pop)
  instr .ret

/-- Emits the code of a function. -/
def function (f : Function) : Emit Unit := do
  record (.generating f.name f.frameSize)
  modify fun s => { s with depth := 0 }
  prologue f
  parameters f
  stmts f f.body
  epilogue f

/-- Emits the code of a program. -/
def program (p : Program) : Emit Unit := do
  line .operandStyle
  line .codeSection
  p.functions.forM function

end Emit
end Assembly

open Assembly in
/-- The assembly of a program. -/
def Program.assemble (p : Program) : Traced Fault (List Line) :=
  .ofResult Emission.log ((do Emit.program p; return (← get).lines.toList) {})

end MicroGo
