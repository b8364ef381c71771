import MicroGo.Assembly.Printer
import MicroGo.Log
import MicroGo.Program.Basic

/-!
# Emitting lines

Code is emitted line by line.  An emission knows how many values the code so far leaves on the
operand stack of the function at hand, because the stack has to be aligned where a function is
called; it hands out the numbers of labels; and it keeps a log.

## Faults

A tree that was not read from a text may speak of a variable that its function does not have, or
call with more arguments than there are registers.  Such a tree has no code.  An emission also
watches its own bookkeeping: it refuses to pop a value that is not there, and a statement that
leaves the operand stack other than it found it.
-/

namespace MicroGo
namespace Assembly

/-- Why there is no code for a tree. -/
inductive Fault where
  | unknownVariable (id : VarId) (function : String)
  | tooManyArguments (callee : String) (count : Nat)
  | emptyStack (dst : Reg)
  | unbalanced (function : String) (depth expected : Nat)
deriving Repr, DecidableEq

/-- The wording of a fault. -/
def Fault.message : Fault → String
  | unknownVariable id function => s!"variable #{id} is not part of the frame of {function}"
  | tooManyArguments callee count =>
      s!"call to {callee} with {count} arguments reached code generation"
  | emptyStack dst => s!"pop into {dst.name} from an empty operand stack"
  | unbalanced function depth expected =>
      s!"statement in {function} left the operand stack at depth {depth} instead of {expected}"

/-- The state of an emission. -/
structure Emission where
  /-- The lines so far. -/
  lines : Array Line := #[]
  /-- The next number for labels. -/
  nextLabel : Nat := 0
  /-- The number of values on the operand stack. -/
  depth : Nat := 0
  /-- What has been done so far. -/
  log : Array Event := #[]

/-- A step of an emission gives a value or a fault, and in both cases a new state. -/
abbrev Emit := EStateM Fault Emission

namespace Emit

/-- Emits a line. -/
def line (l : Line) : Emit Unit :=
  modify fun s => { s with lines := s.lines.push l }

/-- Emits an instruction that leaves the operand stack alone. -/
def instr (i : Instr) : Emit Unit :=
  line (.instr i)

/-- Emits instructions that leave the operand stack alone. -/
def instrs (is : List Instr) : Emit Unit :=
  is.forM instr

/-- Emits a label. -/
def label (l : Label) : Emit Unit :=
  line (.label l)

/-- Emits a push of an operand. -/
def push (src : Reg) : Emit Unit := do
  instr (.push src)
  modify fun s => { s with depth := s.depth + 1 }

/-- Emits a pop of an operand. -/
def pop (dst : Reg) : Emit Unit := fun s =>
  match s.depth with
  | 0 => .error (.emptyStack dst) s
  | depth + 1 => instr (.pop dst) { s with depth }

/-- Adds to the log. -/
def record (event : Event) : Emit Unit :=
  modify fun s => { s with log := s.log.push event }

/-- A number for the labels of one statement. -/
def newLabel : Emit Nat := do
  let id := (← get).nextLabel
  modify fun s => { s with nextLabel := id + 1 }
  record (.allocatedLabel id)
  return id

/-- Runs an emission that has to leave the operand stack as deep as it finds it. -/
def balanced (function : String) (p : Emit Unit) : Emit Unit := do
  let expected := (← get).depth
  p
  let depth := (← get).depth
  if depth = expected then pure () else throw (.unbalanced function depth expected)

end Emit
end Assembly
end MicroGo
