import MicroGo.Proofs.Semantics.Machine

/-!
# Running code, backwards

What a piece of code does is shown from its end to its beginning: if something holds of every
configuration in which the piece can end, it holds of the configuration in which the piece starts.
`Backward` lists what has to be known about that something.  Two properties are of this kind, that
every run gets somewhere (`Eventually`) and that no run ends soon (`Survives`), so one proof about
a piece of code serves both.

`Backward` counts steps.  For `Eventually` the count means nothing.  For `Survives` it is the
number of steps still to come, and one step back adds one to it.

Three kinds of code are run here: one instruction, a list of instructions none of which can jump,
fault or call (`Backward.effects`), and the jumps.
-/

namespace MicroGo
namespace Assembly

variable {σ : Type} {callee : Callee σ} {code : List Line} {pc : Nat} {m m' : Machine σ}

/-! ## Registers and memory -/

namespace Machine

@[simp] theorem set_regs (m : Machine σ) (r : Reg) (v : Word) :
    (m.set r v).regs = Function.update m.regs r v := rfl

@[simp] theorem set_memory (m : Machine σ) (r : Reg) (v : Word) :
    (m.set r v).memory = m.memory := rfl

@[simp] theorem set_flags (m : Machine σ) (r : Reg) (v : Word) : (m.set r v).flags = m.flags := rfl

@[simp] theorem set_world (m : Machine σ) (r : Reg) (v : Word) : (m.set r v).world = m.world := rfl

@[simp] theorem setFlags_regs (m : Machine σ) (flags : Option Flags) :
    (m.setFlags flags).regs = m.regs := rfl

@[simp] theorem setFlags_memory (m : Machine σ) (flags : Option Flags) :
    (m.setFlags flags).memory = m.memory := rfl

@[simp] theorem setFlags_flags (m : Machine σ) (flags : Option Flags) :
    (m.setFlags flags).flags = flags := rfl

@[simp] theorem setFlags_world (m : Machine σ) (flags : Option Flags) :
    (m.setFlags flags).world = m.world := rfl

/-- The machine with a new word at an aligned address. -/
def write (m : Machine σ) (address : Nat) (value : Word) : Machine σ :=
  { m with memory := Function.update m.memory address value }

@[simp] theorem write_regs (m : Machine σ) (a : Nat) (v : Word) : (m.write a v).regs = m.regs := rfl

@[simp] theorem write_memory (m : Machine σ) (a : Nat) (v : Word) :
    (m.write a v).memory = Function.update m.memory a v := rfl

@[simp] theorem write_flags (m : Machine σ) (a : Nat) (v : Word) :
    (m.write a v).flags = m.flags := rfl

@[simp] theorem write_world (m : Machine σ) (a : Nat) (v : Word) :
    (m.write a v).world = m.world := rfl

/-- An aligned word is loaded. -/
theorem load_ofNat {a : Nat} (h : a < 2 ^ 64) (ha : 8 ∣ a) :
    m.load (BitVec.ofNat 64 a) = some (m.memory a) := by
  have hnat : (BitVec.ofNat 64 a).toNat = a := by rw [BitVec.toNat_ofNat, Nat.mod_eq_of_lt h]
  rw [load, hnat, if_pos (Nat.mod_eq_zero_of_dvd ha)]

/-- An aligned word is stored. -/
theorem store_ofNat {a : Nat} (h : a < 2 ^ 64) (ha : 8 ∣ a) (v : Word) :
    m.store (BitVec.ofNat 64 a) v = some (m.write a v) := by
  have hnat : (BitVec.ofNat 64 a).toNat = a := by rw [BitVec.toNat_ofNat, Nat.mod_eq_of_lt h]
  rw [store, hnat, if_pos (Nat.mod_eq_zero_of_dvd ha)]
  rfl

/-- Every call can return: the callee may touch nothing but what has to change. -/
theorem exists_returns (callee : Callee σ) (name : String) (args : List Word) (m : Machine σ) :
    ∃ m', m.Returns callee name args m' := by
  refine ⟨{ m with
    regs := Function.update m.regs .rax (callee name (args.map Int64.ofBitVec) m.world).1.toBitVec
    world := (callee name (args.map Int64.ofBitVec) m.world).2 }, ?_, rfl, ?_, fun _ _ => rfl⟩
  · exact Function.update_self Reg.rax _ m.regs
  · intro r hr
    have hne : r ≠ .rax := by
      rintro rfl
      simp [keptRegs] at hr
    exact Function.update_of_ne hne _ m.regs

end Machine

/-! ## One step -/

namespace Step

variable {c : Config σ}

/-- An instruction that goes on to the next line does so in one way. -/
theorem of_effect {i : Instr} (h : code[pc]? = some (.instr i)) (he : i.effect m = some m')
    (hstep : Step callee code pc m c) : c = .at (pc + 1) m' := by
  cases hstep with
  | skip hl hne => exact absurd (Option.some.inj (hl.symm.trans h)) (hne i)
  | effect hl he' =>
    obtain rfl : _ = i := by simpa using hl.symm.trans h
    rw [Option.some.inj (he'.symm.trans he)]
  | trap hl hq =>
    obtain rfl : _ = i := by simpa using hl.symm.trans h
    simp [Instr.effect, hq] at he
  | jump hl | jumpEqual hl | goOn hl | call hl | ret hl =>
    obtain rfl : _ = i := by simpa using hl.symm.trans h
    simp [Instr.effect] at he

/-- A line that is no instruction is passed over. -/
theorem of_skip {l : Line} (h : code[pc]? = some l) (hl : ∀ i, l ≠ .instr i)
    (hstep : Step callee code pc m c) : c = .at (pc + 1) m := by
  cases hstep with
  | skip => rfl
  | effect hi | trap hi | jump hi | jumpEqual hi | goOn hi | call hi | ret hi =>
    exact absurd (Option.some.inj (h.symm.trans hi)) (hl _)

/-- A jump goes to its label. -/
theorem of_jump {l : Label} {next : Nat} (h : code[pc]? = some (.instr (.jump l)))
    (hl : resolve code l = some next) (hstep : Step callee code pc m c) : c = .at next m := by
  cases hstep with
  | skip hi hne => exact absurd (Option.some.inj (hi.symm.trans h)) (hne _)
  | jump hi hl' =>
    obtain rfl : _ = l := by simpa using hi.symm.trans h
    rw [Option.some.inj (hl'.symm.trans hl)]
  | effect hi he =>
    obtain rfl : _ = Instr.jump l := by simpa using hi.symm.trans h
    simp [Instr.effect] at he
  | trap hi | jumpEqual hi | goOn hi | call hi | ret hi => simp [h] at hi

/-- A conditional jump goes to its label or to the next line, as the zero flag says. -/
theorem of_jumpEqual {l : Label} {next : Nat} {flags : Flags}
    (h : code[pc]? = some (.instr (.jumpEqual l))) (hf : m.flags = some flags)
    (hl : resolve code l = some next) (hstep : Step callee code pc m c) :
    c = .at (if flags.zero then next else pc + 1) m := by
  cases hstep with
  | skip hi hne => exact absurd (Option.some.inj (hi.symm.trans h)) (hne _)
  | jumpEqual hi hf' hz hl' =>
    obtain rfl : _ = l := by simpa using hi.symm.trans h
    obtain rfl : _ = flags := Option.some.inj (hf'.symm.trans hf)
    rw [if_pos hz, Option.some.inj (hl'.symm.trans hl)]
  | goOn hi hf' hz =>
    obtain rfl : _ = flags := Option.some.inj (hf'.symm.trans hf)
    simp [hz]
  | effect hi he =>
    obtain rfl : _ = Instr.jumpEqual l := by simpa using hi.symm.trans h
    simp [Instr.effect] at he
  | trap hi | jump hi | call hi | ret hi => simp [h] at hi

/-- A division without a quotient traps. -/
theorem of_trap {src : Reg} (h : code[pc]? = some (.instr (.div src)))
    (hq : m.quotient? src = none) (hstep : Step callee code pc m c) : c = .trapped m := by
  cases hstep with
  | skip hi hne => exact absurd (Option.some.inj (hi.symm.trans h)) (hne _)
  | trap => rfl
  | effect hi he =>
    obtain rfl : _ = Instr.div src := by simpa using hi.symm.trans h
    simp [Instr.effect, hq] at he
  | jump hi | jumpEqual hi | goOn hi | call hi | ret hi => simp [h] at hi

/-- A call goes on to the next line, in a state in which the callee may leave the machine. -/
theorem of_call {name : String} (h : code[pc]? = some (.instr (.call name)))
    (hstep : Step callee code pc m c) :
    ∃ m', c = .at (pc + 1) m' ∧ m.Returns callee name
      ((passedRegs.take (argumentCount (code.take pc))).map m.regs) m' := by
  cases hstep with
  | skip hi hne => exact absurd (Option.some.inj (hi.symm.trans h)) (hne _)
  | call hi hr =>
    obtain rfl : _ = name := by simpa using hi.symm.trans h
    exact ⟨_, rfl, hr⟩
  | effect hi he =>
    obtain rfl : _ = Instr.call name := by simpa using hi.symm.trans h
    simp [Instr.effect] at he
  | trap hi | jump hi | jumpEqual hi | goOn hi | ret hi => simp [h] at hi

/-- A return leaves the code for the address on top of the stack. -/
theorem of_ret {target : Word} (h : code[pc]? = some (.instr .ret))
    (ht : m.load (m.regs .rsp) = some target) (hstep : Step callee code pc m c) :
    c = .left target (m.set .rsp (m.regs .rsp + 8)) := by
  cases hstep with
  | skip hi hne => exact absurd (Option.some.inj (hi.symm.trans h)) (hne _)
  | ret hi ht' => rw [Option.some.inj (ht'.symm.trans ht)]
  | effect hi he =>
    obtain rfl : _ = Instr.ret := by simpa using hi.symm.trans h
    simp [Instr.effect] at he
  | trap hi | jump hi | jumpEqual hi | goOn hi | call hi => simp [h] at hi

end Step

/-! ## Going back -/

/-- **What may be shown backwards.**  `P n` holds where the machine can take a step and where, after
every step, `P n` holds; and there even `P (n + 1)` holds. -/
structure Backward (callee : Callee σ) (code : List Line) (P : Nat → Config σ → Prop) : Prop where
  less : ∀ {n c}, P (n + 1) c → P n c
  step : ∀ {n pc m}, (∃ c, Step callee code pc m c) → (∀ c, Step callee code pc m c → P n c) →
    P (n + 1) (.at pc m)

theorem Eventually.imp {Q Q' : Config σ → Prop} {c : Config σ} (h : Eventually callee code Q c)
    (himp : ∀ c, Q c → Q' c) : Eventually callee code Q' c := by
  induction h with
  | now hc => exact .now (himp _ hc)
  | later hstep _ ih => exact .later hstep ih

/-- That every run gets somewhere may be shown backwards. -/
theorem backward_eventually (callee : Callee σ) (code : List Line) (Q : Config σ → Prop) :
    Backward callee code fun _ => Eventually callee code Q :=
  ⟨id, fun hstep hall => .later hstep hall⟩

/-- That no run ends soon may be shown backwards. -/
theorem backward_survives (callee : Callee σ) (code : List Line) :
    Backward callee code (Survives callee code) where
  less := by
    intro n
    induction n with
    | zero => exact fun _ => trivial
    | succ n ih =>
      rintro c ⟨pc, m, rfl, hstep, hall⟩
      exact ⟨pc, m, rfl, hstep, fun c' hc' => ih (hall c' hc')⟩
  step := fun hstep hall => ⟨_, _, rfl, hstep, hall⟩

namespace Backward

variable {P : Nat → Config σ → Prop} {n k : Nat}

theorem le (h : Backward callee code P) {c : Config σ} (hkn : k ≤ n) (hP : P n c) : P k c := by
  induction hkn with
  | refl => exact hP
  | step _ ih => exact ih (h.less hP)

/-- A line that is no instruction, seen from behind it. -/
theorem skip (h : Backward callee code P) {l : Line} (hl : code[pc]? = some l)
    (hne : ∀ i, l ≠ .instr i) (hP : P n (.at (pc + 1) m)) : P (n + 1) (.at pc m) := by
  refine h.step ⟨_, .skip hl hne⟩ fun c hc => ?_
  rw [hc.of_skip hl hne]
  exact hP

theorem effect (h : Backward callee code P) {i : Instr} (hi : code[pc]? = some (.instr i))
    (he : i.effect m = some m') (hP : P n (.at (pc + 1) m')) : P n (.at pc m) := by
  refine h.less (h.step ⟨_, .effect hi he⟩ fun c hc => ?_)
  rw [hc.of_effect hi he]
  exact hP

theorem jump (h : Backward callee code P) {l : Label} {next : Nat}
    (hi : code[pc]? = some (.instr (.jump l))) (hl : resolve code l = some next)
    (hP : P n (.at next m)) : P n (.at pc m) := by
  refine h.less (h.step ⟨_, .jump hi hl⟩ fun c hc => ?_)
  rw [hc.of_jump hi hl]
  exact hP

theorem jumpEqual (h : Backward callee code P) {l : Label} {next : Nat} {flags : Flags}
    (hi : code[pc]? = some (.instr (.jumpEqual l))) (hf : m.flags = some flags)
    (hl : resolve code l = some next) (hP : P n (.at (if flags.zero then next else pc + 1) m)) :
    P n (.at pc m) := by
  have hstep : ∃ c, Step callee code pc m c := by
    cases hz : flags.zero with
    | true => exact ⟨_, .jumpEqual hi hf hz hl⟩
    | false => exact ⟨_, .goOn hi hf hz⟩
  refine h.less (h.step hstep fun c hc => ?_)
  rw [hc.of_jumpEqual hi hf hl]
  exact hP

theorem trap (h : Backward callee code P) {src : Reg} (hi : code[pc]? = some (.instr (.div src)))
    (hq : m.quotient? src = none) (hP : P n (.trapped m)) : P n (.at pc m) := by
  refine h.less (h.step ⟨_, .trap hi hq⟩ fun c hc => ?_)
  rw [hc.of_trap hi hq]
  exact hP

/-- A call, seen from behind it: every state counts in which the callee may leave the machine. -/
theorem call (h : Backward callee code P) {name : String} {args : List Word}
    (hi : code[pc]? = some (.instr (.call name)))
    (hargs : (passedRegs.take (argumentCount (code.take pc))).map m.regs = args)
    (hP : ∀ m', m.Returns callee name args m' → P n (.at (pc + 1) m')) : P n (.at pc m) := by
  subst hargs
  obtain ⟨m', hm'⟩ := Machine.exists_returns callee name
    ((passedRegs.take (argumentCount (code.take pc))).map m.regs) m
  refine h.less (h.step ⟨_, .call hi hm'⟩ fun c hc => ?_)
  obtain ⟨m', rfl, hm'⟩ := hc.of_call hi
  exact hP m' hm'

theorem ret (h : Backward callee code P) {target : Word} (hi : code[pc]? = some (.instr .ret))
    (ht : m.load (m.regs .rsp) = some target)
    (hP : P n (.left target (m.set .rsp (m.regs .rsp + 8)))) : P n (.at pc m) := by
  refine h.less (h.step ⟨_, .ret hi ht⟩ fun c hc => ?_)
  rw [hc.of_ret hi ht]
  exact hP

end Backward

/-! ## Pieces of code -/

/-- The lines `ls` stand in the code from line `pc` on. -/
def Stands (code : List Line) (pc : Nat) (ls : List Line) : Prop :=
  ∃ pre post, code = pre ++ (ls ++ post) ∧ pre.length = pc

namespace Stands

variable {a b ls : List Line} {l : Line}

theorem left (h : Stands code pc (a ++ b)) : Stands code pc a := by
  obtain ⟨pre, post, hcode, hpc⟩ := h
  exact ⟨pre, b ++ post, by rw [hcode, List.append_assoc], hpc⟩

theorem right (h : Stands code pc (a ++ b)) : Stands code (pc + a.length) b := by
  obtain ⟨pre, post, hcode, hpc⟩ := h
  exact ⟨pre ++ a, post, by simp [hcode], by simp [hpc]⟩

theorem head (h : Stands code pc (l :: ls)) : code[pc]? = some l := by
  obtain ⟨pre, post, hcode, rfl⟩ := h
  rw [hcode]
  exact getElem?_length_append pre l (ls ++ post)

theorem tail (h : Stands code pc (l :: ls)) : Stands code (pc + 1) ls :=
  right (a := [l]) h

theorem instrs_left {is js : List Instr} (h : Stands code pc (instrLines (is ++ js))) :
    Stands code pc (instrLines is) := by
  rw [instrLines, List.map_append] at h
  exact h.left

theorem instrs_right {is js : List Instr} (h : Stands code pc (instrLines (is ++ js))) :
    Stands code (pc + is.length) (instrLines js) := by
  rw [instrLines, List.map_append] at h
  simpa using h.right

/-- A label resolves to where it stands. -/
theorem resolve {t : Label} (h : Stands code pc (.label t :: ls)) (hnodup : (labels code).Nodup) :
    Assembly.resolve code t = some pc := by
  obtain ⟨pre, post, hcode, rfl⟩ := h
  rw [hcode, List.cons_append] at hnodup ⊢
  exact resolve_of_nodup hnodup

/-- The code in front of what stands behind `ls`. -/
theorem take (h : Stands code pc ls) : code.take (pc + ls.length) = code.take pc ++ ls := by
  obtain ⟨pre, post, rfl, rfl⟩ := h
  rw [← List.append_assoc, ← List.length_append, List.take_left, List.append_assoc, List.take_left]

end Stands

/-- The effect of instructions one after another. -/
def Instr.effects (m : Machine σ) : List Instr → Option (Machine σ)
  | [] => some m
  | i :: is => (i.effect m).bind (Instr.effects · is)

@[simp] theorem Instr.effects_nil (m : Machine σ) : Instr.effects m [] = some m := rfl

@[simp] theorem Instr.effects_cons (m : Machine σ) (i : Instr) (is : List Instr) :
    Instr.effects m (i :: is) = (i.effect m).bind (Instr.effects · is) := rfl

theorem Instr.effects_singleton (m : Machine σ) (i : Instr) :
    Instr.effects m [i] = i.effect m := by
  show (i.effect m).bind some = i.effect m
  simp

theorem Instr.effects_append (m : Machine σ) (is js : List Instr) :
    Instr.effects m (is ++ js) = (Instr.effects m is).bind (Instr.effects · js) := by
  induction is generalizing m with
  | nil => rfl
  | cons i is ih => simp [ih, Option.bind_assoc]

/-- **Instructions none of which jumps, faults or calls**, seen from behind them. -/
theorem Backward.effects {P : Nat → Config σ → Prop} {n : Nat} (h : Backward callee code P)
    {is : List Instr} (hcode : Stands code pc (instrLines is)) (he : Instr.effects m is = some m')
    (hP : P n (.at (pc + is.length) m')) : P n (.at pc m) := by
  induction is generalizing pc m with
  | nil =>
    obtain rfl := Option.some.inj he
    exact hP
  | cons i is ih =>
    obtain ⟨m₁, he₁, he⟩ := Option.bind_eq_some_iff.mp he
    refine h.effect hcode.head he₁ (ih hcode.tail he ?_)
    rwa [List.length_cons, Nat.add_comm is.length, ← Nat.add_assoc] at hP

end Assembly
end MicroGo
