import MicroGo.Program.Basic

/-!
# Frames

The variables of a function lie below its frame pointer, the first declared nearest to it and each
directly below the one before.  The frame is as large as they are together, rounded up to a
multiple of sixteen so that the stack stays aligned below it.

## Rounding up

`alignUp n align` is the quotient of `n + align - 1` by `align`, taken toward zero, times `align`.
For a positive `align` and a nonnegative `n` this is the least multiple of `align` that is at least
`n`.  Division toward zero of signed words has two faults, a zero divisor and the one quotient that
is no signed word, and `alignUp?` reports them.
-/

namespace MicroGo

/-- The reasons why a division of signed words has no answer. -/
inductive DivisionFault where
  | zeroDivisor
  | overflow
deriving Repr, DecidableEq

/-- The wording of a fault. -/
def DivisionFault.message : DivisionFault → String
  | zeroDivisor => "attempt to divide by zero"
  | overflow => "attempt to divide with overflow"

namespace Frame

/-- The value `n` rounded up to a multiple of `align`. -/
def alignUp (n align : Int) : Int :=
  (n + align - 1).tdiv align * align

/-- The value `n` rounded up to a multiple of `align`, or the fault of the division in it. -/
def alignUp? (n align : Int) : Except DivisionFault Int :=
  if align = 0 then .error .zeroDivisor
  else if n + align - 1 = Int64.minValue.toInt ∧ align = -1 then .error .overflow
  else .ok (alignUp n align)

/-- The alignment of a frame in bytes. -/
def alignment : Int :=
  16

end Frame

/-- A declared variable that has no slot yet. -/
structure Declaration where
  name : String
  type : Ty
deriving Repr, DecidableEq

namespace Frame

/-- Variables with their slots, below `used` bytes that are already taken. -/
def place (used : Int) : List Declaration → List Variable
  | [] => []
  | d :: ds => ⟨d.name, d.type, used + d.type.size⟩ :: place (used + d.type.size) ds

/-- The bytes that variables take together. -/
def bytes (declarations : List Declaration) : Int :=
  declarations.foldr (fun d n => d.type.size + n) 0

end Frame

/-- A function with the given declarations, of which the first `paramCount` are parameters. -/
def Function.ofDeclarations (name : String) (paramCount : Nat) (declarations : List Declaration)
    (body : List Stmt) : Function :=
  let vars := Frame.place 0 declarations
  { name
    params := vars.take paramCount
    locals := vars.drop paramCount
    body
    frameSize := Frame.alignUp (Frame.bytes declarations) Frame.alignment }

end MicroGo
