import MicroGo.Proofs.Simulation.Expr

/-!
# The code of an expression, wherever it is emitted

An expression may be emitted at any depth of the operand stack and run on any machine that has the
frame of its function in place.  Nothing else is asked for: the tree need not have been read from a
text, the pending operands of the expressions around it may be anything, and so may the registers
and the flags.  The code then leaves the machine as it found it, up to one more word on the stack,
which is the value of the expression.

## Calls

What calls do to the world is what they do in the reference semantics.  The world is any type, and
the callee any function, so this says as much as can be said about the calls: a callee that writes
its calls into the world (`Callee.recorded`) finds the same names and the same arguments there, in
the same order.

## What stands in front

The lines may stand anywhere in a text.  Only a call without arguments at the very beginning of an
expression is told by the lines in front of it from a call with arguments, and so these lines must
not look like loading arguments (`Settled`).  If no line stands in front, they do not.
-/

namespace MicroGo

open Assembly

/-- The callee that does the same and also keeps a record of the calls, the first call first. -/
def Callee.recorded {σ : Type} (callee : Callee σ) : Callee (σ × List (String × List Int64)) :=
  fun name args world =>
    ((callee name args world.1).1, (callee name args world.1).2, world.2 ++ [(name, args)])

/-- What is known of a run that gives a value is known of this value. -/
theorem Outcome.exists_of_ok {ε τ α : Type} {good P : α → τ → Prop} {bad : ε → τ → Prop}
    {r : EStateM.Result ε τ α} (h : Outcome good bad r) (hr : Outcome P (fun _ _ => False) r) :
    ∃ a s, P a s ∧ good a s := by
  cases r with
  | ok a s => exact ⟨a, s, hr, h⟩
  | error e s => exact hr.elim

namespace Assembly

variable {σ : Type} {f : Function} {e : Expr} {m m' : Machine σ}

/-- The values of the variables of a function, in the frame that the frame pointer points at. -/
def slotValues (f : Function) (m : Machine σ) : Env :=
  fun id => .ofBitVec (m.memory (f.slot (m.regs .rbp).toNat id))

/-- **The machine is prepared for an expression**: the frame pointer and the stack pointer are
addresses of words, the frame of the function lies between them, and there is room below. -/
structure Prepared (f : Function) (e : Expr) (m : Machine σ) : Prop where
  base : 8 ∣ (m.regs .rbp).toNat
  aligned : 8 ∣ (m.regs .rsp).toNat
  below : ((m.regs .rsp).toNat : Int) + f.frameSize ≤ (m.regs .rbp).toNat
  room : 8 * e.room ≤ (m.regs .rsp).toNat

/-- **The machine has evaluated an expression**: one more word lies on the stack, calls have left
the given world, and all memory from the stack pointer up and the registers that a caller relies on
are as they were in `m`. -/
structure Evaluated (m : Machine σ) (value : Int64) (world : σ) (m' : Machine σ) : Prop where
  pointer : m'.regs .rsp = m.regs .rsp - 8
  value : m'.memory (m'.regs .rsp).toNat = value.toBitVec
  keeps : Keeps (m.regs .rsp).toNat m m'
  world : m'.world = world

theorem ofNat_toNat_word (w : Word) : BitVec.ofNat 64 w.toNat = w := by
  rw [BitVec.ofNat_toNat, BitVec.setWidth_eq]

theorem Prepared.ready (h : Prepared f e m) :
    Ready f (m.regs .rbp).toNat (slotValues f m) (m.regs .rsp).toNat m where
  frame := by
    refine ⟨(ofNat_toNat_word _).symm, fun id _ => ?_⟩
    rw [slotValues, Int64.toBitVec_ofBitVec]
  base_lt := (m.regs .rbp).isLt
  base_dvd := h.base
  pointer := (ofNat_toNat_word _).symm
  lt := (m.regs .rsp).isLt
  dvd := h.aligned
  below := h.below

theorem evaluated_of_pushed {v : Int64} {w : σ} (hroom : 8 ≤ (m.regs .rsp).toNat)
    (h : Pushed (m.regs .rsp).toNat [v] m m') (hworld : m'.world = w) : Evaluated m v w m' := by
  obtain ⟨hvalue, hpointer⟩ := h.stack
  have hlt : (m.regs .rsp).toNat < 2 ^ 64 := (m.regs .rsp).isLt
  have hpointer' : m'.regs .rsp = BitVec.ofNat 64 ((m.regs .rsp).toNat - 8) := hpointer
  refine ⟨?_, ?_, h.keeps, hworld⟩
  · rw [hpointer', ← ofNat_sub_eight hroom, ofNat_toNat_word]
  · rw [hpointer', BitVec.toNat_ofNat, Nat.mod_eq_of_lt (by omega)]
    exact hvalue

/-- An emission that succeeds appends the code of the expression, which has no misfit. -/
theorem exists_of_emit_expr {s t : Emission} (h : Emit.expr f e s = .ok () t) :
    e.fault? f = none ∧
      t.lines.toList = s.lines.toList ++ instrLines (e.code f s.depth) := by
  have hyields := yields_expr f e s.depth s.nextLabel s rfl rfl
  cases hfault : e.fault? f with
  | some fault =>
    rw [hfault] at hyields
    obtain ⟨u, hu⟩ := hyields
    rw [h] at hu
    cases hu
  | none =>
    rw [hfault] at hyields
    obtain ⟨log, hlog⟩ := hyields
    rw [h] at hlog
    cases hlog
    exact ⟨rfl, Array.toList_append⟩

/-- The lines of an expression, wherever they stand, evaluate it. -/
theorem evaluates_expr (hf : f.Laid) (hfault : e.fault? f = none) (callee : Callee σ) (depth : Nat)
    {before : List Line} (after : List Line) (hbefore : Settled before) (hm : Prepared f e m) :
    Outcome
      (fun v w => Eventually callee (before ++ (instrLines (e.code f depth) ++ after))
        (fun c => ∃ m', c = .at (before.length + (e.code f depth).length) m' ∧ Evaluated m v w m')
        (.at before.length m))
      (fun _ w => Eventually callee (before ++ (instrLines (e.code f depth) ++ after))
        (fun c => ∃ m', c = .trapped m' ∧ m'.world = w) (.at before.length m))
      (e.eval callee (slotValues f m) m.world) := by
  have hstands : Stands (before ++ (instrLines (e.code f depth) ++ after)) before.length
      (instrLines (e.code f depth)) := ⟨before, after, rfl, rfl⟩
  have hset : Settled ((before ++ (instrLines (e.code f depth) ++ after)).take before.length) := by
    rwa [List.take_left]
  have hroom := hm.room
  have hpos := e.room_pos
  cases heval : e.eval callee (slotValues f m) m.world with
  | ok v w =>
    refine run_expr (n := 0) (backward_eventually callee _ _) hf e hstands hset hfault hm.ready
      hroom ?_
    rw [heval]
    intro m' hpush hworld
    exact .now ⟨m', rfl, evaluated_of_pushed (by omega) hpush hworld⟩
  | error x w =>
    refine run_expr (n := 0) (backward_eventually callee _ _) hf e hstands hset hfault hm.ready
      hroom ?_
    rw [heval]
    exact fun m' hworld => .now ⟨m', rfl, hworld⟩

/-- **Emitted expressions are evaluated.**  Let the slots of a function lie inside its frame, and
let the emission of an expression succeed, at whatever depth of the operand stack.  Then the lines
that it appends evaluate the expression, on every machine that has the frame in place and room
below: if the expression has a value, every run gets behind the lines with this value on the stack
and everything above it untouched, after the calls that the expression makes; and if a division in
it has no quotient, every run traps after the calls before it. -/
theorem emitted_expr_evaluates
    (hf : ∀ v ∈ f.vars, 8 ∣ v.offset ∧ 8 ≤ v.offset ∧ v.offset ≤ f.frameSize) {s t : Emission}
    (h : Emit.expr f e s = .ok () t) :
    ∃ lines, t.lines.toList = s.lines.toList ++ lines ∧
      ∀ (σ : Type) (callee : Callee σ) (before after : List Line) (m : Machine σ),
        Settled before → Prepared f e m →
          Outcome
            (fun v w => Eventually callee (before ++ (lines ++ after))
              (fun c => ∃ m', c = .at (before.length + lines.length) m' ∧ Evaluated m v w m')
              (.at before.length m))
            (fun _ w => Eventually callee (before ++ (lines ++ after))
              (fun c => ∃ m', c = .trapped m' ∧ m'.world = w) (.at before.length m))
            (e.eval callee (slotValues f m) m.world) := by
  have hlaid : f.Laid := by
    refine ⟨fun id hid => ?_⟩
    have hoffset : f.offset id = f.vars[id].offset := by
      rw [Function.offset, Function.find?_eq_getElem?, List.getElem?_eq_getElem hid]
      rfl
    rw [hoffset]
    exact hf _ (List.getElem_mem hid)
  obtain ⟨hfault, hlines⟩ := exists_of_emit_expr h
  refine ⟨_, hlines, fun σ callee before after m hbefore hm => ?_⟩
  rw [List.length_map]
  exact evaluates_expr hlaid hfault callee s.depth after hbefore hm

/-- The expression `g(x / 2, h(y)) - 7` above one pending operand, for `x` nine and `y` five.  The
callee adds its arguments up, so the value is two, and `h` is called before `g`. -/
theorem emitted_expr_evaluates_nested :
    ∃ t, Emit.expr ⟨"f", [⟨"x", .int, 8⟩, ⟨"y", .int, 16⟩], [], [], 16⟩
        (.binary .sub (.call "g" [.binary .div (.var 0) (.num 2), .call "h" [.var 1]]) (.num 7))
        { depth := 1 } = .ok () t ∧
      Eventually (Callee.recorded fun _ args (world : Unit) => (args.sum, world)) t.lines.toList
        (fun c => ∃ m', c = .at t.lines.size m' ∧ m'.regs .rsp = 4064 ∧ m'.memory 4064 = 2 ∧
          m'.world = ((), [("h", [5]), ("g", [4, 5])]))
        (.at 0 ⟨fun r => if r = .rbp then 4096 else 4072, none, fun a => if a = 4088 then 9 else 5,
          ((), [])⟩) := by
  obtain ⟨t, ht⟩ : ∃ t, Emit.expr ⟨"f", [⟨"x", .int, 8⟩, ⟨"y", .int, 16⟩], [], [], 16⟩
      (.binary .sub (.call "g" [.binary .div (.var 0) (.num 2), .call "h" [.var 1]]) (.num 7))
      { depth := 1 } = .ok () t := ⟨_, rfl⟩
  obtain ⟨lines, hlines, hrun⟩ := emitted_expr_evaluates (by decide) ht
  have h := hrun _ (Callee.recorded fun _ args (world : Unit) => (args.sum, world)) [] []
    ⟨fun r => if r = .rbp then 4096 else 4072, none, fun a => if a = 4088 then 9 else 5, ((), [])⟩
    settled_nil ⟨by decide, by decide, by decide, by decide⟩
  obtain ⟨v, w, ⟨rfl, rfl⟩, hgood⟩ := h.exists_of_ok
    (P := fun v w => v = 2 ∧ w = ((), [("h", [5]), ("g", [4, 5])])) (by decide +kernel)
  obtain rfl : t.lines.toList = lines := hlines
  rw [List.nil_append, List.append_nil, List.length_nil, Nat.zero_add] at hgood
  refine ⟨t, ht, Eventually.imp hgood ?_⟩
  rintro c ⟨m', hc, hm'⟩
  have hpointer : m'.regs .rsp = 4064 := hm'.pointer
  have hvalue := hm'.value
  rw [hpointer] at hvalue
  exact ⟨m', hc, hpointer, hvalue, hm'.world⟩

end Assembly
end MicroGo
