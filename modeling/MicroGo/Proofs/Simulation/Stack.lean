import MicroGo.Proofs.Simulation.Operation

/-!
# Frames and operands

Where the variables and the operands of a function lie in memory, and what pushing and popping does
to them.  Addresses are numbers here; a machine word stands for one through `BitVec.ofNat`.

* `Framed`: the frame pointer is at the base of the frame, and the slots below it hold the values
  of the variables.
* `OnStack`: values lie on the operand stack, one below the other, and the stack pointer is at the
  last one.  What lies below it is not spoken of.
* `Keeps`: what code leaves alone, all memory from an address up and the registers that a caller
  relies on.
-/

namespace MicroGo

open Assembly

/-- The slots of a function lie inside its frame. -/
structure Function.Laid (f : Function) : Prop where
  slot : ∀ id < f.vars.length, 8 ∣ f.offset id ∧ 8 ≤ f.offset id ∧ f.offset id ≤ f.frameSize

/-- The address of a variable in a frame with the given base. -/
def Function.slot (f : Function) (base : Nat) (id : VarId) : Nat :=
  base - (f.offset id).toNat

namespace Assembly

variable {σ : Type} {m m₁ m₂ : Machine σ} {f : Function} {base sp : Nat} {env : Env}

/-! ## What is kept -/

/-- **What code leaves alone**: the frame pointer, the saved registers, and all memory from `sp`
up. -/
structure Keeps (sp : Nat) (m m' : Machine σ) : Prop where
  regs : ∀ r ∈ keptRegs, m'.regs r = m.regs r
  memory : ∀ a, sp ≤ a → m'.memory a = m.memory a

namespace Keeps

theorem refl (sp : Nat) (m : Machine σ) : Keeps sp m m :=
  ⟨fun _ _ => rfl, fun _ _ => rfl⟩

theorem trans {sp' : Nat} (h : Keeps sp m m₁) (h' : Keeps sp' m₁ m₂) (hle : sp' ≤ sp) :
    Keeps sp m m₂ where
  regs r hr := (h'.regs r hr).trans (h.regs r hr)
  memory a ha := (h'.memory a (hle.trans ha)).trans (h.memory a ha)

/-- Code that changes no memory and only registers that nobody relies on. -/
theorem of_regs (hregs : ∀ r ∈ keptRegs, m₁.regs r = m.regs r)
    (hmem : m₁.memory = m.memory) : Keeps sp m m₁ :=
  ⟨hregs, fun a _ => congrFun hmem a⟩

theorem set {r : Reg} (hr : r ∉ keptRegs) (v : Word) : Keeps sp m (m.set r v) := by
  refine of_regs (fun x hx => ?_) rfl
  have hne : x ≠ r := fun h => hr (h ▸ hx)
  simp [Function.update_of_ne hne]

end Keeps

/-- The values of the variables lie in the frame that the frame pointer points at. -/
structure Framed (f : Function) (base : Nat) (env : Env) (m : Machine σ) : Prop where
  pointer : m.regs .rbp = BitVec.ofNat 64 base
  slots : ∀ id < f.vars.length, m.memory (f.slot base id) = (env id).toBitVec

/-- The machine runs code of the function `f`: its frame is in place, and the stack pointer is an
address below it. -/
structure Ready (f : Function) (base : Nat) (env : Env) (sp : Nat) (m : Machine σ) : Prop where
  frame : Framed f base env m
  base_lt : base < 2 ^ 64
  base_dvd : 8 ∣ base
  pointer : m.regs .rsp = BitVec.ofNat 64 sp
  lt : sp < 2 ^ 64
  dvd : 8 ∣ sp
  below : (sp : Int) + f.frameSize ≤ base

namespace Ready

/-- The slot of a variable is an aligned address above the operands. -/
theorem slot_bounds (h : Ready f base env sp m) (hf : f.Laid) {id : VarId}
    (hid : id < f.vars.length) :
    sp ≤ f.slot base id ∧ f.slot base id < base ∧ 8 ∣ f.slot base id := by
  obtain ⟨hdvd, hlow, hhigh⟩ := hf.slot id hid
  have := h.below
  have := h.base_dvd
  unfold Function.slot
  omega

/-- The machine finds the address of a variable. -/
theorem slot_eq (h : Ready f base env sp m) (hf : f.Laid) {id : VarId} (hid : id < f.vars.length) :
    m.slot (f.offset id) = BitVec.ofNat 64 (f.slot base id) := by
  obtain ⟨-, hlow, hhigh⟩ := hf.slot id hid
  have hbelow := h.below
  have hlt := h.base_lt
  have hoffset : BitVec.ofInt 64 (f.offset id) = BitVec.ofNat 64 (f.offset id).toNat := by
    rw [← BitVec.ofInt_natCast, Int.toNat_of_nonneg (by omega)]
  rw [Machine.slot, h.frame.pointer, hoffset, BitVec.ofNat_sub_ofNat_of_le _ _ (by omega)
    (by omega), Function.slot]

/-- What code keeps from the operands up keeps the machine ready. -/
theorem of_keeps (h : Ready f base env sp m) (hf : f.Laid) (hk : Keeps sp m m₁) {sp' : Nat}
    (hsp : m₁.regs .rsp = BitVec.ofNat 64 sp') (hdvd : 8 ∣ sp') (hle : sp' ≤ sp) :
    Ready f base env sp' m₁ where
  frame := by
    refine ⟨(hk.regs .rbp (by decide)).trans h.frame.pointer, fun id hid => ?_⟩
    rw [hk.memory _ (h.slot_bounds hf hid).1, h.frame.slots id hid]
  base_lt := h.base_lt
  base_dvd := h.base_dvd
  pointer := hsp
  lt := hle.trans_lt h.lt
  dvd := hdvd
  below := by
    have := h.below
    omega

end Ready

/-! ## Operands -/

/-- **Values on the stack.**  From the address `sp` down lie the given values, and the stack pointer
is at the last of them. -/
def OnStack (m : Machine σ) : Nat → List Int64 → Prop
  | sp, [] => m.regs .rsp = BitVec.ofNat 64 sp
  | sp, v :: vs => m.memory (sp - 8) = v.toBitVec ∧ OnStack m (sp - 8) vs

theorem OnStack.pointer {vs : List Int64} (h : OnStack m sp vs) :
    m.regs .rsp = BitVec.ofNat 64 (sp - 8 * vs.length) := by
  induction vs generalizing sp with
  | nil => exact h
  | cons v vs ih =>
    rw [ih h.2, List.length_cons]
    congr 1
    omega

/-- Code has put values on the stack, and kept what was there. -/
structure Pushed (sp : Nat) (vs : List Int64) (m m' : Machine σ) : Prop where
  keeps : Keeps sp m m'
  stack : OnStack m' sp vs

/-- One value after another. -/
theorem Pushed.cons {v : Int64} {vs : List Int64} (h : Pushed sp [v] m m₁)
    (h' : Pushed (sp - 8) vs m₁ m₂) : Pushed sp (v :: vs) m m₂ where
  keeps := h.keeps.trans h'.keeps (by omega)
  stack := ⟨(h'.keeps.memory _ le_rfl).trans h.stack.1, h'.stack⟩

/-- Values in place of others. -/
theorem Pushed.replace {vs ws : List Int64} (h : Pushed sp vs m m₁) (h' : Pushed sp ws m₁ m₂) :
    Pushed sp ws m m₂ where
  keeps := h.keeps.trans h'.keeps le_rfl
  stack := h'.stack

/-- Eight less, as a word and as an address. -/
theorem ofNat_sub_eight (hroom : 8 ≤ sp) :
    BitVec.ofNat 64 sp - 8 = BitVec.ofNat 64 (sp - 8) :=
  BitVec.ofNat_sub_ofNat_of_le sp 8 (by decide) hroom

/-- Eight more, as a word and as an address. -/
theorem ofNat_add_eight (sp : Nat) : BitVec.ofNat 64 sp + 8 = BitVec.ofNat 64 (sp + 8) :=
  (BitVec.ofNat_add sp 8).symm

theorem effect_push (hsp : m.regs .rsp = BitVec.ofNat 64 sp) (hlt : sp < 2 ^ 64) (hdvd : 8 ∣ sp)
    (hroom : 8 ≤ sp) (r : Reg) : (Instr.push r).effect m =
      some ((m.write (sp - 8) (m.regs r)).set .rsp (BitVec.ofNat 64 (sp - 8))) := by
  rw [Instr.effect, hsp, ofNat_sub_eight hroom, Machine.store_ofNat (by omega) (by omega)]
  rfl

theorem effect_pop (hsp : m.regs .rsp = BitVec.ofNat 64 sp) (hlt : sp < 2 ^ 64) (hdvd : 8 ∣ sp)
    (r : Reg) : (Instr.pop r).effect m =
      some ((m.set .rsp (BitVec.ofNat 64 (sp + 8))).set r (m.memory sp)) := by
  rw [Instr.effect, hsp, Machine.load_ofNat hlt hdvd, ofNat_add_eight]
  rfl

end Assembly
end MicroGo
