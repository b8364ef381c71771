import MicroGo.Proofs.Semantics.Run

/-!
# Operators on the machine

The instructions of an operator find their operands in `rax` and `rdi` and leave the value of the
operator in `rax`.  Sums, differences and products of words are what the instructions compute.
The other two kinds of operators go through something else:

* a comparison goes through the flags of a difference, and the sign of a difference says which
  operand is less only together with the overflow (`shows_ofSub`);
* a quotient is that of a double word, into which the sign of `rax` is extended, and it traps
  exactly where the quotient of the two words does not exist (`quotient?_extended`).
-/

namespace MicroGo
namespace Assembly

variable {σ : Type} {m m' : Machine σ} {a b : Int64}

/-! ## Comparisons -/

/-- A condition holds of two words. -/
def Condition.holds : Condition → Int64 → Int64 → Bool
  | .equal, a, b => a = b
  | .notEqual, a, b => a ≠ b
  | .less, a, b => a < b
  | .lessOrEqual, a, b => a ≤ b

/-- A difference is zero where the words are equal. -/
theorem zero_ofSub (a b : Int64) : (Flags.ofSub a.toBitVec b.toBitVec).zero = decide (a = b) := by
  rw [Flags.ofSub, decide_eq_decide, ← Int64.toBitVec_inj, BitVec.sub_eq_iff_eq_add]
  simp

/-- The sign of a difference, read with its overflow, says which word is less. -/
theorem sign_ofSub (a b : Int64) :
    ((Flags.ofSub a.toBitVec b.toBitVec).sign != (Flags.ofSub a.toBitVec b.toBitVec).overflow) =
      decide (a < b) := by
  have ha := a.toBitVec.toInt_lt
  have ha' := a.toBitVec.le_toInt
  have hb := b.toBitVec.toInt_lt
  have hb' := b.toBitVec.le_toInt
  have hsign : (a.toBitVec - b.toBitVec).toInt =
      (a.toBitVec.toInt - b.toBitVec.toInt).bmod (2 ^ 64) := BitVec.toInt_sub
  rw [Flags.ofSub, BitVec.msb_eq_toInt, hsign, BitVec.ssubOverflow]
  simp only [Int64.lt_iff_toInt_lt, ← Int64.toInt_toBitVec] at *
  generalize a.toBitVec.toInt = x at *
  generalize b.toBitVec.toInt = y at *
  rw [Bool.eq_iff_iff, bne_iff_ne, ne_eq, Bool.eq_iff_iff]
  simp only [Bool.or_eq_true, decide_eq_true_eq]
  -- the difference is off by a whole turn exactly where it overflows
  rcases lt_or_ge (x - y) (-2 ^ 63) with hlow | hlow
  · have hturn : (x - y).bmod (2 ^ 64) = x - y + 2 ^ 64 := by rw [Int.bmod_def]; omega
    omega
  · rcases lt_or_ge (x - y) (2 ^ 63) with hhigh | hhigh
    · have hturn : (x - y).bmod (2 ^ 64) = x - y := by rw [Int.bmod_def]; omega
      omega
    · have hturn : (x - y).bmod (2 ^ 64) = x - y - 2 ^ 64 := by rw [Int.bmod_def]; omega
      omega

/-- **The flags of a difference show how two words compare.** -/
theorem shows_ofSub (condition : Condition) (a b : Int64) :
    (Flags.ofSub a.toBitVec b.toBitVec).shows condition = condition.holds a b := by
  cases condition with
  | equal => exact zero_ofSub a b
  | notEqual => rw [Flags.shows, zero_ofSub, Condition.holds]; simp
  | less => exact sign_ofSub a b
  | lessOrEqual =>
    rw [Flags.shows, zero_ofSub, sign_ofSub, Condition.holds, ← Bool.decide_or,
      decide_eq_decide, Int64.le_iff_lt_or_eq, or_comm]

/-- A byte that is set and then extended is all there is. -/
theorem setByte_extendByte (x : Word) (set : Bool) :
    ((x &&& ~~~0xff) ||| if set then 1 else 0) &&& 0xff = (truthValue set).toBitVec := by
  rw [BitVec.and_or_distrib_right, BitVec.and_assoc]
  cases set <;> simp [truthValue]

/-! ## Quotients -/

/-- Extending the sign keeps the number. -/
theorem dividend_extended (h : m.regs .rdx = if (m.regs .rax).msb then -1 else 0) :
    m.dividend = (m.regs .rax).toInt := by
  rw [Machine.dividend, h, BitVec.toInt_append, BitVec.toInt_eq_msb_cond (m.regs .rax)]
  cases (m.regs .rax).msb with
  | true => simp; omega
  | false => simp

/-- A quotient of words, taken toward zero, is a word, unless it is that of the least word by minus
one. -/
theorem tdiv_lt {x y : Int} (hx : -2 ^ 63 ≤ x) (hx' : x < 2 ^ 63) (hy : y ≠ 0)
    (h : ¬(x = -2 ^ 63 ∧ y = -1)) : -2 ^ 63 ≤ x.tdiv y ∧ x.tdiv y < 2 ^ 63 := by
  have habs : (x.tdiv y).natAbs ≤ x.natAbs := Int.natAbs_tdiv_le_natAbs x y
  refine ⟨by omega, ?_⟩
  by_contra hge
  -- only the quotient of the least word can be this large, and then it is by one or minus one
  have hxmin : x = -2 ^ 63 := by omega
  have hnat : (x.tdiv y).natAbs = x.natAbs / y.natAbs := Int.natAbs_tdiv x y
  have hone : y.natAbs = 1 := by
    by_contra hne
    have hhalf : x.natAbs / y.natAbs ≤ x.natAbs / 2 := Nat.div_le_div_left (by omega) (by omega)
    omega
  have hy1 : y = 1 := by omega
  rw [hy1, Int.tdiv_one] at hge
  omega

/-- **The quotient of the extended double word is the quotient of the words.** -/
theorem quotient?_extended (h : m.regs .rdx = if (m.regs .rax).msb then -1 else 0)
    (ha : m.regs .rax = a.toBitVec) (hb : m.regs .rdi = b.toBitVec) :
    m.quotient? .rdi = (quotient a b).toOption.map Int64.toBitVec := by
  have hlow : -2 ^ 63 ≤ a.toInt := a.le_toInt
  have hhigh : a.toInt < 2 ^ 63 := a.toInt_lt
  have hmin : a = Int64.minValue ↔ a.toInt = -2 ^ 63 := by
    rw [← Int64.toInt_inj, Int64.toInt_minValue]
  have hone : b = -1 ↔ b.toInt = -1 := by
    rw [← Int64.toInt_inj]
    rfl
  rw [Machine.quotient?, dividend_extended h, ha, hb, Int64.toInt_toBitVec, Int64.toInt_toBitVec,
    quotient]
  by_cases hzero : b = 0
  · have hzero' : b.toInt = 0 := by rw [hzero]; rfl
    rw [if_pos (Or.inl hzero'), if_pos hzero]
    rfl
  have hzero' : b.toInt ≠ 0 := fun h0 => hzero (Int64.toInt_inj.mp h0)
  rw [if_neg hzero]
  by_cases hover : a = Int64.minValue ∧ b = -1
  · have hbig : a.toInt.tdiv b.toInt = 2 ^ 63 := by
      rw [hmin.mp hover.1, hone.mp hover.2]
      rfl
    rw [if_pos hover, if_pos (Or.inr (Or.inr (by omega)))]
    rfl
  · have hrange := tdiv_lt hlow hhigh hzero' (by rwa [← hmin, ← hone])
    rw [if_neg hover, if_neg (by omega)]
    have hword : BitVec.ofInt 64 (a.toInt.tdiv b.toInt) = (a / b).toBitVec := by
      rw [← BitVec.toInt_inj, Int64.toInt_toBitVec, Int64.toInt_div, BitVec.toInt_ofInt]
    rw [hword]
    rfl

/-! ## All operators -/

/-- What the instructions of an operator leave alone. -/
structure Computes (value : Int64) (m m' : Machine σ) : Prop where
  value : m'.regs .rax = value.toBitVec
  regs : ∀ r, r ≠ .rax → r ≠ .rdx → m'.regs r = m.regs r
  memory : m'.memory = m.memory
  world : m'.world = m.world

theorem effects_comparison (ha : m.regs .rax = a.toBitVec) (hb : m.regs .rdi = b.toBitVec)
    (condition : Condition) :
    ∃ m', Instr.effects m (operation.comparison condition) = some m' ∧
      Computes (truthValue (condition.holds a b)) m m' := by
  refine ⟨_, rfl, ?_, ?_, rfl, rfl⟩
  · simp only [Machine.set_regs, Function.update_self, Machine.setFlags_regs, ha, hb]
    rw [setByte_extendByte, shows_ofSub]
  · intro r hax hdx
    simp [Function.update_of_ne hax]

/-- **The instructions of an operator compute it.** -/
theorem effects_operation {op : BinaryOp} {v : Int64} (ha : m.regs .rax = a.toBitVec)
    (hb : m.regs .rdi = b.toBitVec) (hv : op.apply a b = .ok v) :
    ∃ m', Instr.effects m (operation op) = some m' ∧ Computes v m m' := by
  cases op with
  | add | sub | mul =>
    obtain rfl := Except.ok.inj hv
    refine ⟨_, rfl, by simp [ha, hb], fun r hax hdx => ?_, rfl, rfl⟩
    simp [Function.update_of_ne hax]
  | eq | ne | lt | le =>
    obtain rfl := Except.ok.inj hv
    exact effects_comparison ha hb _
  | div =>
    let extended := m.set .rdx (if (m.regs .rax).msb then -1 else 0)
    have hq : extended.quotient? .rdi = some v.toBitVec := by
      rw [quotient?_extended (a := a) (b := b) (by simp [extended]) (by simp [extended, ha])
        (by simp [extended, hb])]
      rw [BinaryOp.apply] at hv
      rw [hv]
      rfl
    have he : Instr.effects m (operation .div) = some (((extended.set .rax v.toBitVec).set .rdx
        (BitVec.ofInt 64 (extended.dividend.tmod (extended.regs .rdi).toInt))).setFlags none) := by
      simp only [operation, Instr.effects_cons, Instr.effects_nil, Instr.effect, Option.bind_some]
      rw [hq]
      rfl
    refine ⟨_, he, by simp, fun r hax hdx => ?_, rfl, rfl⟩
    simp [extended, Function.update_of_ne hax, Function.update_of_ne hdx]

/-- Only a quotient can fault, and then the machine has none. -/
theorem quotient?_of_fault {op : BinaryOp} {x : DivisionFault} (ha : m.regs .rax = a.toBitVec)
    (hb : m.regs .rdi = b.toBitVec) (hv : op.apply a b = .error x) :
    op = .div ∧ (m.set .rdx (if (m.regs .rax).msb then -1 else 0)).quotient? .rdi = none := by
  cases op with
  | div =>
    refine ⟨rfl, ?_⟩
    rw [quotient?_extended (a := a) (b := b) (by simp) (by simp [ha]) (by simp [hb])]
    rw [BinaryOp.apply] at hv
    rw [hv]
    rfl
  | add | sub | mul | eq | ne | lt | le => exact absurd hv (by simp [BinaryOp.apply])

end Assembly
end MicroGo
