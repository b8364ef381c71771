/-!
# Assembly

The lines of an assembly text as data: the instructions of a 64-bit machine that compiled programs
use, the labels they jump to, and the directives around them.  The names follow the order in which
the text shows the operands: a source comes before its destination.

A frame slot is given by the distance by which it lies *below* the frame pointer.
-/

namespace MicroGo
namespace Assembly

/-- The registers in use. -/
inductive Reg where
  | rax
  | rbx
  | rcx
  | rdx
  | rdi
  | rsi
  | rbp
  | rsp
  | r8
  | r9
  | r12
  | r13
  | r14
  | r15
deriving Repr, DecidableEq

/-- Places in the code.  A function has one at its start and one at its end, and each conditional
or loop has some that share its number. -/
inductive Label where
  | entry (function : String)
  | exit (function : String)
  | begin (id : Nat)
  | otherwise (id : Nat)
  | done (id : Nat)
deriving Repr, DecidableEq

/-- The outcome of a comparison that a bit is set for. -/
inductive Condition where
  | equal
  | notEqual
  | less
  | lessOrEqual
deriving Repr, DecidableEq

/-- Instructions. -/
inductive Instr where
  /-- Push a register onto the stack. -/
  | push (src : Reg)
  /-- Pop the stack into a register. -/
  | pop (dst : Reg)
  /-- Copy a register. -/
  | move (src dst : Reg)
  /-- Set a register to a word. -/
  | moveWord (value : Int64) (dst : Reg)
  /-- Load the word at the address in a register. -/
  | load (address dst : Reg)
  /-- Store a register at the address in another. -/
  | store (src address : Reg)
  /-- Store a register in a frame slot. -/
  | storeSlot (src : Reg) (offset : Int)
  /-- Set a register to the address of a frame slot. -/
  | slotAddress (offset : Int) (dst : Reg)
  /-- Add to a register. -/
  | add (src dst : Reg)
  /-- Subtract from a register. -/
  | sub (src dst : Reg)
  /-- Multiply a register. -/
  | mul (src dst : Reg)
  /-- Add a number to a register. -/
  | addWord (value : Int) (dst : Reg)
  /-- Subtract a number from a register. -/
  | subWord (value : Int) (dst : Reg)
  /-- Extend the sign of `rax` into `rdx`. -/
  | signExtend
  /-- Divide `rdx` and `rax` together by a register. -/
  | div (src : Reg)
  /-- Compare a register with another. -/
  | compare (src dst : Reg)
  /-- Compare a register with a word. -/
  | compareWord (value : Int64) (dst : Reg)
  /-- Set the low byte of `rax` to one if the last comparison came out so, and to zero otherwise. -/
  | setByte (condition : Condition)
  /-- Extend the low byte of `rax` to all of it by zeros. -/
  | extendByte
  /-- Jump. -/
  | jump (target : Label)
  /-- Jump if the last comparison found its operands equal. -/
  | jumpEqual (target : Label)
  /-- Call a function. -/
  | call (callee : String)
  /-- Return to the caller. -/
  | ret
deriving Repr, DecidableEq

/-- Lines of the text. -/
inductive Line where
  /-- The operand order of the text, and register names with their sign. -/
  | operandStyle
  /-- The lines below are code. -/
  | codeSection
  /-- The function is visible to other texts. -/
  | global (function : String)
  | label (label : Label)
  | instr (instr : Instr)
deriving Repr, DecidableEq

/-- The registers that carry the arguments of a call, the first argument first. -/
def argumentRegs : List Reg :=
  [.rdi, .rsi, .rdx, .rcx, .r8, .r9]

/-- The registers, besides the frame pointer, that a function leaves as it finds them. -/
def savedRegs : List Reg :=
  [.rbx, .r12, .r13, .r14, .r15]

end Assembly
end MicroGo
