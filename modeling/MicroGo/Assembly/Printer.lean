import MicroGo.Assembly.Basic

/-!
# The text of assembly

Each line is written on a line of its own.  Instructions stand behind two blanks, labels before a
colon.  Numbers are written in decimal as they are, so the slot of a negative distance shows two
minus signs.
-/

namespace MicroGo
namespace Assembly

/-- The name of a register. -/
def Reg.name : Reg → String
  | rax => "%rax"
  | rbx => "%rbx"
  | rcx => "%rcx"
  | rdx => "%rdx"
  | rdi => "%rdi"
  | rsi => "%rsi"
  | rbp => "%rbp"
  | rsp => "%rsp"
  | r8 => "%r8"
  | r9 => "%r9"
  | r12 => "%r12"
  | r13 => "%r13"
  | r14 => "%r14"
  | r15 => "%r15"

/-- The name of a label.  The names of a text's own functions are visible to others, and all other
labels begin with a dot. -/
def Label.name : Label → String
  | entry function => function
  | exit function => ".L.return." ++ function
  | begin id => s!".L.begin.{id}"
  | otherwise id => s!".L.else.{id}"
  | done id => s!".L.end.{id}"

/-- The instruction that sets a byte under a condition. -/
def Condition.name : Condition → String
  | equal => "sete"
  | notEqual => "setne"
  | less => "setl"
  | lessOrEqual => "setle"

/-- A frame slot as an operand. -/
def slot (offset : Int) : String :=
  s!"-{offset}(%rbp)"

/-- The text of an instruction. -/
def Instr.render : Instr → String
  | push src => s!"push {src.name}"
  | pop dst => s!"pop {dst.name}"
  | move src dst => s!"mov {src.name}, {dst.name}"
  | moveWord value dst => s!"mov ${value.toInt}, {dst.name}"
  | load address dst => s!"mov ({address.name}), {dst.name}"
  | store src address => s!"mov {src.name}, ({address.name})"
  | storeSlot src offset => s!"mov {src.name}, {slot offset}"
  | slotAddress offset dst => s!"lea {slot offset}, {dst.name}"
  | add src dst => s!"add {src.name}, {dst.name}"
  | sub src dst => s!"sub {src.name}, {dst.name}"
  | mul src dst => s!"imul {src.name}, {dst.name}"
  | addWord value dst => s!"add ${value}, {dst.name}"
  | subWord value dst => s!"sub ${value}, {dst.name}"
  | signExtend => "cqo"
  | div src => s!"idiv {src.name}"
  | compare src dst => s!"cmp {src.name}, {dst.name}"
  | compareWord value dst => s!"cmp ${value.toInt}, {dst.name}"
  | setByte condition => s!"{condition.name} %al"
  | extendByte => "movzbl %al, %eax"
  | jump target => s!"jmp {target.name}"
  | jumpEqual target => s!"je {target.name}"
  | call callee => s!"call {callee}"
  | ret => "ret"

/-- The text of a line without its line end. -/
def Line.render : Line → String
  | operandStyle => ".att_syntax prefix"
  | codeSection => ".text"
  | global function => s!".globl {function}"
  | label l => s!"{l.name}:"
  | instr i => s!"  {i.render}"

/-- The text of lines. -/
def render (lines : List Line) : String :=
  String.join (lines.map fun line => line.render ++ "\n")

end Assembly
end MicroGo
