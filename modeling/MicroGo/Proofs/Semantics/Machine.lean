import Mathlib.Logic.Function.Basic
import MicroGo.Proofs.Assembly.Padding
import MicroGo.Proofs.Semantics.Evaluation

/-!
# The machine

The machine that assembly runs on: registers of 64 bits, the flags of the last comparison, and a
memory of words.  A word lies at every address that is a multiple of eight, and the machine gets
stuck when it is asked for a word anywhere else; so a run that does not get stuck never looks at
memory in a way that words could not describe.

## Calls

A call is one step.  The callee finds the arguments in the argument registers; it leaves its value
in `rax`, keeps the registers that a function has to keep and all memory from the stack pointer up,
and may change everything else.  How many arguments a call passes is not part of the instruction.
It is read off the code: they are the registers loaded directly before it (`argumentCount`).  Which
registers carry arguments and which ones are kept is written out here; `emitted_convention` says
that the tables of the emitter are the same.

What a callee leaves in the registers and the memory that it may change is unknown, so the machine
has many runs from one state.  `Eventually` speaks about all of them: whatever callees leave
behind, the run gets to a configuration of the given kind.

## Flags

A subtraction, an addition and a comparison set the flags.  After a product, a quotient and a call
they are unspecified, and the machine gets stuck if it has to look at them.
-/

namespace MicroGo
namespace Assembly

/-- The words of the machine. -/
abbrev Word := BitVec 64

/-! ## States -/

/-- The flags: the result was zero, it was negative, and it was too large for a signed word. -/
structure Flags where
  zero : Bool
  sign : Bool
  overflow : Bool
deriving DecidableEq

namespace Flags

/-- The flags of a difference. -/
def ofSub (a b : Word) : Flags :=
  ⟨a - b = 0, (a - b).msb, BitVec.ssubOverflow a b⟩

/-- The flags of a sum. -/
def ofAdd (a b : Word) : Flags :=
  ⟨a + b = 0, (a + b).msb, BitVec.saddOverflow a b⟩

/-- The flags show an outcome of a comparison. -/
def shows (flags : Flags) : Condition → Bool
  | .equal => flags.zero
  | .notEqual => !flags.zero
  | .less => flags.sign != flags.overflow
  | .lessOrEqual => flags.zero || flags.sign != flags.overflow

end Flags

/-- The state of the machine, apart from the place in the code. -/
structure Machine (σ : Type) where
  regs : Reg → Word
  /-- The flags, if they are specified. -/
  flags : Option Flags
  /-- The word at each address that is a multiple of eight. -/
  memory : Nat → Word
  world : σ

variable {σ : Type}

namespace Machine

/-- The machine with a new value in a register. -/
def set (m : Machine σ) (r : Reg) (value : Word) : Machine σ :=
  { m with regs := Function.update m.regs r value }

/-- The word at an address. -/
def load (m : Machine σ) (address : Word) : Option Word :=
  if address.toNat % 8 = 0 then some (m.memory address.toNat) else none

/-- The machine with a new word at an address. -/
def store (m : Machine σ) (address value : Word) : Option (Machine σ) :=
  if address.toNat % 8 = 0 then
    some { m with memory := Function.update m.memory address.toNat value }
  else none

/-- The machine with new flags. -/
def setFlags (m : Machine σ) (flags : Option Flags) : Machine σ :=
  { m with flags }

/-- The address of a frame slot. -/
def slot (m : Machine σ) (offset : Int) : Word :=
  m.regs .rbp - BitVec.ofInt 64 offset

/-- The number that `rdx` and `rax` hold together. -/
def dividend (m : Machine σ) : Int :=
  (m.regs .rdx ++ m.regs .rax : BitVec 128).toInt

/-- The quotient of the double word in `rdx` and `rax` by a register, if it is a word. -/
def quotient? (m : Machine σ) (src : Reg) : Option Word :=
  let divisor := (m.regs src).toInt
  let result := m.dividend.tdiv divisor
  if divisor = 0 ∨ result < -2 ^ 63 ∨ 2 ^ 63 ≤ result then none
  else some (BitVec.ofInt 64 result)

end Machine

/-! ## Steps -/

/-- What an instruction does to the machine, if control then goes on to the next line.  It does
nothing where the machine gets stuck, or where control goes elsewhere. -/
def Instr.effect (m : Machine σ) : Instr → Option (Machine σ)
  | .push src => (m.store (m.regs .rsp - 8) (m.regs src)).map (·.set .rsp (m.regs .rsp - 8))
  | .pop dst => (m.load (m.regs .rsp)).map (m.set .rsp (m.regs .rsp + 8) |>.set dst ·)
  | .move src dst => some (m.set dst (m.regs src))
  | .moveWord value dst => some (m.set dst value.toBitVec)
  | .load address dst => (m.load (m.regs address)).map (m.set dst ·)
  | .store src address => m.store (m.regs address) (m.regs src)
  | .storeSlot src offset => m.store (m.slot offset) (m.regs src)
  | .slotAddress offset dst => some (m.set dst (m.slot offset))
  | .add src dst =>
      some ((m.set dst (m.regs dst + m.regs src)).setFlags
        (some (.ofAdd (m.regs dst) (m.regs src))))
  | .sub src dst =>
      some ((m.set dst (m.regs dst - m.regs src)).setFlags
        (some (.ofSub (m.regs dst) (m.regs src))))
  | .mul src dst => some ((m.set dst (m.regs dst * m.regs src)).setFlags none)
  | .addWord value dst =>
      some ((m.set dst (m.regs dst + BitVec.ofInt 64 value)).setFlags
        (some (.ofAdd (m.regs dst) (BitVec.ofInt 64 value))))
  | .subWord value dst =>
      some ((m.set dst (m.regs dst - BitVec.ofInt 64 value)).setFlags
        (some (.ofSub (m.regs dst) (BitVec.ofInt 64 value))))
  | .signExtend => some (m.set .rdx (if (m.regs .rax).msb then -1 else 0))
  | .div src => (m.quotient? src).map fun q =>
      ((m.set .rax q).set .rdx (BitVec.ofInt 64 (m.dividend.tmod (m.regs src).toInt))).setFlags none
  | .compare src dst => some (m.setFlags (some (.ofSub (m.regs dst) (m.regs src))))
  | .compareWord value dst => some (m.setFlags (some (.ofSub (m.regs dst) value.toBitVec)))
  | .setByte condition => m.flags.map fun flags =>
      m.set .rax ((m.regs .rax &&& ~~~0xff) ||| if flags.shows condition then 1 else 0)
  | .extendByte => some (m.set .rax (m.regs .rax &&& 0xff))
  | .jump _ => none
  | .jumpEqual _ => none
  | .call _ => none
  | .ret => none

/-- The configurations of a run. -/
inductive Config (σ : Type) where
  /-- Line `pc` is next. -/
  | at (pc : Nat) (m : Machine σ)
  /-- Control has left the code for the address `target`. -/
  | left (target : Word) (m : Machine σ)
  /-- The machine has trapped at a division without a quotient. -/
  | trapped (m : Machine σ)

/-- The registers that carry the arguments of a call, the first argument first. -/
def passedRegs : List Reg :=
  [.rdi, .rsi, .rdx, .rcx, .r8, .r9]

/-- The registers, besides the stack pointer, that a function leaves as it finds them. -/
def keptRegs : List Reg :=
  [.rbp, .rbx, .r12, .r13, .r14, .r15]

/-- **Code is emitted for this machine**: its arguments are passed, and its registers are saved, as
callers and callees agree on it. -/
theorem emitted_convention : argumentRegs = passedRegs ∧ .rbp :: savedRegs = keptRegs :=
  ⟨rfl, rfl⟩

/-- How many of the registers `rs` are loaded by pops, the first one last; the lines before the
place in question are given from the nearest on. -/
def loaded : List Reg → List Line → Nat
  | r :: rs, l :: ls => if l = .instr (.pop r) then loaded rs ls + 1 else 0
  | _, _ => 0

/-- The lines without `l` in front. -/
def skipLine (l : Line) : List Line → List Line
  | [] => []
  | x :: ls => if x = l then ls else x :: ls

/-- How many arguments a call passes, by the lines before it.  Directly before a call `rax` is
cleared, before that there may be padding, and before that the arguments are loaded. -/
def argumentCount (before : List Line) : Nat :=
  loaded passedRegs (skipLine padLine (skipLine (.instr (.moveWord 0 .rax)) before.reverse))

/-- `m'` is a state in which the callee may leave the machine, when it is called in state `m` with
the given arguments. -/
structure Machine.Returns (callee : Callee σ) (name : String) (args : List Word)
    (m m' : Machine σ) : Prop where
  value : m'.regs .rax = (callee name (args.map Int64.ofBitVec) m.world).1.toBitVec
  world : m'.world = (callee name (args.map Int64.ofBitVec) m.world).2
  regs : ∀ r ∈ .rsp :: keptRegs, m'.regs r = m.regs r
  memory : ∀ address, (m.regs .rsp).toNat ≤ address → m'.memory address = m.memory address

/-- **One step of the machine** in the given code. -/
inductive Step (callee : Callee σ) (code : List Line) : Nat → Machine σ → Config σ → Prop where
  | skip {pc : Nat} {m : Machine σ} {l : Line} : code[pc]? = some l → (∀ i, l ≠ .instr i) →
      Step callee code pc m (.at (pc + 1) m)
  | effect {pc : Nat} {m m' : Machine σ} {i : Instr} : code[pc]? = some (.instr i) →
      i.effect m = some m' → Step callee code pc m (.at (pc + 1) m')
  | trap {pc : Nat} {m : Machine σ} {src : Reg} : code[pc]? = some (.instr (.div src)) →
      m.quotient? src = none → Step callee code pc m (.trapped m)
  | jump {pc next : Nat} {m : Machine σ} {l : Label} : code[pc]? = some (.instr (.jump l)) →
      resolve code l = some next → Step callee code pc m (.at next m)
  | jumpEqual {pc next : Nat} {m : Machine σ} {l : Label} {flags : Flags} :
      code[pc]? = some (.instr (.jumpEqual l)) → m.flags = some flags → flags.zero = true →
      resolve code l = some next → Step callee code pc m (.at next m)
  | goOn {pc : Nat} {m : Machine σ} {l : Label} {flags : Flags} :
      code[pc]? = some (.instr (.jumpEqual l)) → m.flags = some flags → flags.zero = false →
      Step callee code pc m (.at (pc + 1) m)
  | call {pc : Nat} {m m' : Machine σ} {name : String} : code[pc]? = some (.instr (.call name)) →
      m.Returns callee name
        ((passedRegs.take (argumentCount (code.take pc))).map m.regs) m' →
      Step callee code pc m (.at (pc + 1) m')
  | ret {pc : Nat} {m : Machine σ} {target : Word} : code[pc]? = some (.instr .ret) →
      m.load (m.regs .rsp) = some target →
      Step callee code pc m (.left target (m.set .rsp (m.regs .rsp + 8)))

/-! ## Runs -/

/-- **Every run gets there.**  From the given configuration the machine does not get stuck before
it is in a configuration that satisfies `Q`, and it gets to one, whatever callees leave behind. -/
inductive Eventually (callee : Callee σ) (code : List Line) (Q : Config σ → Prop) :
    Config σ → Prop where
  | now {c : Config σ} : Q c → Eventually callee code Q c
  | later {pc : Nat} {m : Machine σ} : (∃ c, Step callee code pc m c) →
      (∀ c, Step callee code pc m c → Eventually callee code Q c) →
        Eventually callee code Q (.at pc m)

/-- **No run ends soon.**  From the given configuration the machine takes at least `n` steps,
whatever callees leave behind. -/
def Survives (callee : Callee σ) (code : List Line) : Nat → Config σ → Prop
  | 0, _ => True
  | n + 1, c => ∃ pc m, c = .at pc m ∧ (∃ c', Step callee code pc m c') ∧
      ∀ c', Step callee code pc m c' → Survives callee code n c'

end Assembly
end MicroGo
