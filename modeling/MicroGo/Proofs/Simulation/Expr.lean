import MicroGo.Proofs.Simulation.Stack

/-!
# Running the code of expressions

The code of an expression puts its value on the stack, wherever it stands: at any depth of the
operand stack, behind any code, and in the frame of any function that has the variables of the
expression.  If a division in it has no quotient, the machine traps.  Calls are made in the order in
which the expression makes them, so the world they leave is the same.

The statement (`run_expr`) is about what comes after: if `P` holds of all configurations in which
the evaluation may leave the machine, then `P` holds where the code starts.

## Arguments

How many arguments a call passes is read off the lines before it.  For a call without arguments
these are the lines in front of the whole expression, and they must not look like loading
arguments.  `Settled` says that they do not.
-/

namespace MicroGo

open Assembly

/-! ## The stack that code needs -/

mutual

/-- How many words the code of an expression puts on the stack at most. -/
def Expr.room : Expr → Nat
  | .num _ => 1
  | .var _ => 1
  | .binary _ lhs rhs => max (Expr.room lhs) (Expr.room rhs + 1)
  | .call _ args => max (Expr.rooms args) 1

/-- How many words the code of expressions puts on the stack at most. -/
def Expr.rooms : List Expr → Nat
  | [] => 0
  | e :: es => max (Expr.room e) (Expr.rooms es + 1)

end

theorem Expr.room_pos (e : Expr) : 1 ≤ e.room := by
  cases e with
  | num value | var id => exact le_rfl
  | binary op lhs rhs => rw [Expr.room]; omega
  | call callee args => rw [Expr.room]; omega

theorem Expr.length_le_rooms (es : List Expr) : es.length ≤ Expr.rooms es := by
  induction es with
  | nil => exact Nat.zero_le _
  | cons e es ih => rw [Expr.rooms, List.length_cons]; omega

namespace Assembly

variable {σ : Type}

/-! ## Counting arguments -/

/-- The lines do not end in loading an argument or in padding. -/
def Settled (ls : List Line) : Prop :=
  ∀ l, ls.getLast? = some l → l ≠ padLine ∧ ∀ r ∈ passedRegs, l ≠ .instr (.pop r)

theorem Settled.append {a b : List Line} (ha : Settled a) (hb : Settled b) : Settled (a ++ b) := by
  intro l hl
  rw [List.getLast?_append] at hl
  cases hlast : b.getLast? with
  | none =>
    rw [hlast, Option.none_or] at hl
    exact ha l hl
  | some x =>
    rw [hlast, Option.some_or] at hl
    exact hb l (hlast.trans hl)

theorem settled_nil : Settled [] := fun l hl => absurd hl (by simp)

/-- Behind code that is settled, the code in front is settled. -/
theorem Settled.behind {code ls : List Line} {pc : Nat} (hset : Settled (code.take pc))
    (hcode : Stands code pc ls) (hls : Settled ls) : Settled (code.take (pc + ls.length)) := by
  rw [hcode.take]
  exact hset.append hls

theorem settled_of_getLast? {ls : List Line} {l : Line} (h : ls.getLast? = some l)
    (hl : l ≠ padLine ∧ ∀ r ∈ passedRegs, l ≠ .instr (.pop r)) : Settled ls := by
  intro x hx
  rw [h, Option.some_inj] at hx
  exact hx ▸ hl

/-- The code of an expression ends in a push. -/
theorem exists_code_eq_push (f : Function) (depth : Nat) (e : Expr) :
    ∃ is, e.code f depth = is ++ [.push .rax] := by
  cases e with
  | num value => exact ⟨[_], rfl⟩
  | var id => exact ⟨[_, _, _, _], rfl⟩
  | binary op lhs rhs =>
    exact ⟨_, by rw [Expr.code, ← List.append_assoc _ _ [Instr.push .rax]]⟩
  | call callee args =>
    exact ⟨_, by rw [Expr.code, ← List.append_assoc _ _ [Instr.push .rax]]⟩

theorem settled_expr (f : Function) (depth : Nat) (e : Expr) :
    Settled (instrLines (e.code f depth)) := by
  obtain ⟨is, his⟩ := exists_code_eq_push f depth e
  exact settled_of_getLast? (l := .instr (.push .rax)) (by simp [his]) (by decide)

theorem settled_exprs (f : Function) (es : List Expr) (depth : Nat) :
    Settled (instrLines (Expr.codes f depth es)) := by
  induction es generalizing depth with
  | nil => exact settled_nil
  | cons e es ih =>
    rw [Expr.codes, instrLines, List.map_append]
    exact (settled_expr f depth e).append (ih (depth + 1))

/-- Loads are counted up to a line that is no load. -/
theorem loaded_pops {rest : List Line} : ∀ {rs : List Reg} {count : Nat}, count ≤ rs.length →
    (∀ r ∈ rs, rest.head? ≠ some (.instr (.pop r))) →
      loaded rs ((rs.take count).map (fun r => .instr (.pop r)) ++ rest) = count
  | [], count, hcount, _ => by
    rw [Nat.le_zero.mp hcount]
    rfl
  | r :: rs, 0, _, hrest => by
    cases rest with
    | nil => rfl
    | cons l rest =>
      have hl : l ≠ .instr (.pop r) := by simpa using hrest r (List.mem_cons_self ..)
      exact if_neg hl
  | r :: rs, count + 1, hcount, hrest => by
    rw [List.take_succ_cons, List.map_cons, List.cons_append, loaded, if_pos rfl,
      loaded_pops (by simpa using hcount) fun x hx => hrest x (List.mem_cons_of_mem r hx)]

@[simp] theorem skipLine_self (l : Line) (ls : List Line) : skipLine l (l :: ls) = ls :=
  if_pos rfl

theorem skipLine_of_head {l : Line} {ls : List Line} (h : ls.head? ≠ some l) :
    skipLine l ls = ls := by
  cases ls with
  | nil => rfl
  | cons x ls => exact if_neg fun hx => h (congrArg some hx)

/-- **The arguments of a call are counted** in the code that calls with them. -/
theorem argumentCount_callCode {before : List Line} (h : Settled before) {count : Nat}
    (hcount : count ≤ passedRegs.length) {padding : List Instr}
    (hpadding : padding = [] ∨ padding = [.subWord 8 .rsp]) :
    argumentCount (before ++ (instrLines (loadArguments count) ++
      (instrLines padding ++ [.instr (.moveWord 0 .rax)]))) = count := by
  have hhead : before.reverse.head? = before.getLast? := List.head?_reverse
  let pops := (passedRegs.take count).map fun r => Line.instr (.pop r)
  have hpops : (instrLines (loadArguments count)).reverse = pops := by
    simp [loadArguments, emitted_convention.1, instrLines, pops, Function.comp_def]
  have hloaded : loaded passedRegs (pops ++ before.reverse) = count := by
    refine loaded_pops hcount fun r hr hlast => ?_
    rw [hhead] at hlast
    exact (h _ hlast).2 r hr rfl
  -- without padding the lines above do not look like it
  have hskip : skipLine padLine (pops ++ before.reverse) = pops ++ before.reverse := by
    refine skipLine_of_head fun hpad => ?_
    rw [List.head?_append, Option.or_eq_some_iff] at hpad
    rcases hpad with hpad | ⟨-, hpad⟩
    · obtain ⟨r, -, hr⟩ := List.mem_map.mp (List.mem_of_mem_head? hpad)
      exact absurd hr (by simp)
    · rw [hhead] at hpad
      exact (h _ hpad).1 rfl
  rw [argumentCount]
  rcases hpadding with rfl | rfl
  · simp [hpops, hskip, hloaded]
  · simp [hpops, hloaded]

/-! ## Operands into registers -/

/-- Popping values from the stack into registers, the last value first. -/
theorem effects_pops {m : Machine σ} : ∀ {rs : List Reg} {vs : List Int64} {sp : Nat},
    OnStack m sp vs → rs.length = vs.length → rs.Nodup → .rsp ∉ rs → 8 * vs.length ≤ sp → 8 ∣ sp →
    sp < 2 ^ 64 → ∃ m', Instr.effects m (rs.reverse.map .pop) = some m' ∧
      rs.map m'.regs = vs.map Int64.toBitVec ∧ m'.regs .rsp = BitVec.ofNat 64 sp ∧
      (∀ r, r ∉ rs → r ≠ .rsp → m'.regs r = m.regs r) ∧ m'.memory = m.memory ∧ m'.world = m.world
  | [], [], sp, hstack, _, _, _, _, _, _ => ⟨m, rfl, rfl, hstack, fun _ _ _ => rfl, rfl, rfl⟩
  | r :: rs, v :: vs, sp, hstack, hlen, hnodup, hrsp, hroom, hdvd, hlt => by
    rw [List.length_cons] at hroom
    rw [List.nodup_cons] at hnodup
    rw [List.mem_cons, not_or] at hrsp
    obtain ⟨m₁, he, hregs, hsp, hother, hmem, hworld⟩ := effects_pops hstack.2
      (by simpa using hlen) hnodup.2 hrsp.2 (by omega) (by omega) (by omega)
    have hpop := effect_pop hsp (by omega) (by omega) r
    have hback : sp - 8 + 8 = sp := by omega
    rw [hback, hmem, hstack.1] at hpop
    refine ⟨(m₁.set .rsp (BitVec.ofNat 64 sp)).set r v.toBitVec, ?_, ?_, ?_, ?_, hmem, hworld⟩
    · rw [List.reverse_cons, List.map_append, Instr.effects_append, he, Option.bind_some]
      exact (Instr.effects_singleton m₁ (.pop r)).trans hpop
    · have hkeep : rs.map ((m₁.set .rsp (BitVec.ofNat 64 sp)).set r v.toBitVec).regs =
          rs.map m₁.regs := by
        refine List.map_congr_left fun x hx => ?_
        have hxr : x ≠ r := fun heq => hnodup.1 (heq ▸ hx)
        have hxsp : x ≠ .rsp := fun heq => hrsp.2 (heq ▸ hx)
        simp [Function.update_of_ne hxr, Function.update_of_ne hxsp]
      rw [List.map_cons, hkeep, hregs]
      simp
    · simp [Function.update_of_ne hrsp.1]
    · intro x hx hxsp
      rw [List.mem_cons, not_or] at hx
      simp [Function.update_of_ne hx.1, Function.update_of_ne hxsp, hother x hx.2 hxsp]

/-- Pushing `rax` puts its value on the stack. -/
theorem pushed_rax {m : Machine σ} {sp : Nat} {v : Int64} (hsp : m.regs .rsp = BitVec.ofNat 64 sp)
    (hax : m.regs .rax = v.toBitVec) (hlt : sp < 2 ^ 64) (hdvd : 8 ∣ sp) (hroom : 8 ≤ sp) :
    ∃ m', (Instr.push .rax).effect m = some m' ∧ Pushed sp [v] m m' ∧ m'.world = m.world := by
  refine ⟨_, effect_push hsp hlt hdvd hroom .rax, ⟨⟨?_, ?_⟩, ?_, ?_⟩, rfl⟩
  · intro r hr
    have hne : r ≠ .rsp := by
      rintro rfl
      simp [keptRegs] at hr
    simp [Function.update_of_ne hne]
  · intro a ha
    have hne : a ≠ sp - 8 := by omega
    simp [Function.update_of_ne hne]
  · simp [hax]
  · simp [OnStack]

/-! ## Expressions -/

section

variable {callee : Callee σ} {code : List Line} {P : Nat → Config σ → Prop} {f : Function}
  {base n : Nat} {env : Env}

/-- Pushing the address of a variable. -/
theorem effects_address {m : Machine σ} {sp : Nat} (hf : f.Laid) (hm : Ready f base env sp m)
    (hroom : 8 ≤ sp) {id : VarId} (hid : id < f.vars.length) :
    ∃ m', Instr.effects m [.slotAddress (f.offset id) .rax, .push .rax] = some m' ∧
      Pushed sp [.ofBitVec (BitVec.ofNat 64 (f.slot base id))] m m' ∧ m'.world = m.world := by
  obtain ⟨m', he, hpush, hworld⟩ := pushed_rax
    (m := m.set .rax (BitVec.ofNat 64 (f.slot base id)))
    (v := Int64.ofBitVec (BitVec.ofNat 64 (f.slot base id)))
    (by simpa using hm.pointer) (by simp) hm.lt hm.dvd hroom
  refine ⟨m', ?_, ⟨(Keeps.set (by decide) _).trans hpush.keeps le_rfl, hpush.stack⟩, hworld⟩
  rw [Instr.effects_cons, Instr.effect, hm.slot_eq hf hid, Option.bind_some,
    Instr.effects_singleton, he]

/-- The code of a variable puts its value on the stack. -/
theorem effects_variable {m : Machine σ} {sp : Nat} (hf : f.Laid) (hm : Ready f base env sp m)
    (hroom : 8 ≤ sp) {id : VarId} (hid : id < f.vars.length) :
    ∃ m', Instr.effects m ([.slotAddress (f.offset id) .rax, .push .rax] ++
        [.pop .rax, .load .rax .rax, .push .rax]) = some m' ∧
      Pushed sp [env id] m m' ∧ m'.world = m.world := by
  obtain ⟨hlow, hhigh, hslot⟩ := hm.slot_bounds hf hid
  have hlt := hm.lt
  have hbase := hm.base_lt
  obtain ⟨m₁, he₁, hpush₁, hworld₁⟩ := effects_address hf hm hroom hid
  obtain ⟨m₂, he₂, hregs₂, hsp₂, hother₂, hmem₂, hworld₂⟩ := effects_pops hpush₁.stack
    (show [Reg.rax].length = _ from rfl) (by decide) (by decide) (by simpa using hroom) hm.dvd hlt
  rw [List.reverse_singleton, List.map_singleton, Instr.effects_singleton] at he₂
  have hax₂ : m₂.regs .rax = BitVec.ofNat 64 (f.slot base id) := (List.cons.inj hregs₂).1
  have hvalue : m₂.memory (f.slot base id) = (env id).toBitVec := by
    rw [hmem₂, hpush₁.keeps.memory _ hlow]
    exact hm.frame.slots id hid
  have he₃ : (Instr.load .rax .rax).effect m₂ = some (m₂.set .rax (env id).toBitVec) := by
    rw [Instr.effect, hax₂, Machine.load_ofNat (by omega) hslot, hvalue]
    rfl
  obtain ⟨m₃, he₄, hpush₃, hworld₃⟩ := pushed_rax (m := m₂.set .rax (env id).toBitVec)
    (v := env id) (by simpa using hsp₂) (by simp) hlt hm.dvd hroom
  have hkeeps₂ : Keeps sp m₁ m₂ := by
    have hkept : ∀ r ∈ keptRegs, r ∉ [Reg.rax] ∧ r ≠ .rsp := by decide
    exact .of_regs (fun r hr => hother₂ r (hkept r hr).1 (hkept r hr).2) hmem₂
  have hkeeps₃ : Keeps sp m₂ m₃ := (Keeps.set (by decide) _).trans hpush₃.keeps le_rfl
  refine ⟨m₃, ?_, ⟨(hpush₁.keeps.trans hkeeps₂ le_rfl).trans hkeeps₃ le_rfl, hpush₃.stack⟩, ?_⟩
  · rw [Instr.effects_append, he₁, Option.bind_some, Instr.effects_cons, he₂, Option.bind_some,
      Instr.effects_cons, he₃, Option.bind_some, Instr.effects_singleton, he₄]
  · rw [hworld₃, Machine.set_world, hworld₂, hworld₁]

/-- The code of an operation behind that of its operands. -/
def operatorCode (op : BinaryOp) : List Instr :=
  [.pop .rdi, .pop .rax] ++ operation op ++ [.push .rax]

/-- The end of an operation: the operands are taken from the stack, and the value is put there. -/
theorem run_operation (hP : Backward callee code P) {op : BinaryOp} {a b : Int64} {pc sp : Nat}
    {m : Machine σ} (hcode : Stands code pc (instrLines (operatorCode op)))
    (hstack : OnStack m sp [a, b]) (hroom : 16 ≤ sp) (hdvd : 8 ∣ sp) (hlt : sp < 2 ^ 64)
    (hok : ∀ v, op.apply a b = .ok v → ∀ m', Pushed sp [v] m m' → m'.world = m.world →
      P n (.at (pc + (operatorCode op).length) m'))
    (hfault : ∀ x, op.apply a b = .error x → ∀ m', m'.world = m.world → P n (.trapped m')) :
    P n (.at pc m) := by
  have hlen : [Reg.rax, .rdi].length = [a, b].length := rfl
  obtain ⟨m₁, hpops, hregs, hsp, hother, hmem, hworld⟩ := effects_pops hstack hlen
    (by decide) (by decide) hroom hdvd hlt
  have he₁ : Instr.effects m [.pop .rdi, .pop .rax] = some m₁ := hpops
  have hax : m₁.regs .rax = a.toBitVec := (List.cons.inj hregs).1
  have hdi : m₁.regs .rdi = b.toBitVec := (List.cons.inj (List.cons.inj hregs).2).1
  cases hv : op.apply a b with
  | ok v =>
    obtain ⟨m₂, he₂, hcomputes⟩ := effects_operation hax hdi hv
    have hsp₂ : m₂.regs .rsp = BitVec.ofNat 64 sp :=
      (hcomputes.regs .rsp (by decide) (by decide)).trans hsp
    obtain ⟨m₃, he₃, hpushed, hworld₃⟩ := pushed_rax hsp₂ hcomputes.value hlt hdvd (by omega)
    have he : Instr.effects m (operatorCode op) = some m₃ := by
      rw [operatorCode, Instr.effects_append, Instr.effects_append, he₁, Option.bind_some, he₂,
        Option.bind_some, Instr.effects_singleton, he₃]
    have hkeeps : Keeps sp m m₂ := by
      refine ⟨fun r hr => ?_, fun address _ => ?_⟩
      · have hr' : r ≠ .rax ∧ r ≠ .rdx ∧ r ≠ .rdi ∧ r ≠ .rsp := by
          refine ⟨?_, ?_, ?_, ?_⟩ <;> (rintro rfl; simp [keptRegs] at hr)
        rw [hcomputes.regs r hr'.1 hr'.2.1, hother r (by simp [hr'.1, hr'.2.2.1]) hr'.2.2.2]
      · rw [hcomputes.memory, hmem]
    refine hP.effects hcode he (hok v hv m₃ ⟨hkeeps.trans hpushed.keeps le_rfl, hpushed.stack⟩ ?_)
    rw [hworld₃, hcomputes.world, hworld]
  | error x =>
    obtain ⟨rfl, hq⟩ := quotient?_of_fault hax hdi hv
    have hdiv := hcode.instrs_left.instrs_right
    refine hP.effects hcode.instrs_left.instrs_left he₁ (hP.effect hdiv.head rfl ?_)
    exact hP.trap hdiv.tail.head hq (hfault x hv _ hworld)

/-- Padding moves the stack pointer. -/
theorem effects_padding {m : Machine σ} {sp : Nat} (hsp : m.regs .rsp = BitVec.ofNat 64 sp)
    (hroom : 8 ≤ sp) (padded : Bool) :
    ∃ m', Instr.effects m (if padded then [.subWord 8 .rsp] else []) = some m' ∧
      m'.regs .rsp = BitVec.ofNat 64 (sp - if padded then 8 else 0) ∧
      (∀ r, r ≠ .rsp → m'.regs r = m.regs r) ∧ m'.memory = m.memory ∧ m'.world = m.world := by
  cases padded with
  | false => exact ⟨m, rfl, hsp, fun _ _ => rfl, rfl, rfl⟩
  | true =>
    refine ⟨_, rfl, ?_, fun r hr => ?_, rfl, rfl⟩
    · simpa [hsp] using ofNat_sub_eight hroom
    · simp [Function.update_of_ne hr]

/-- Giving the padding back moves the stack pointer back. -/
theorem effects_unpadding {m : Machine σ} {sp : Nat} (padded : Bool)
    (hsp : m.regs .rsp = BitVec.ofNat 64 (sp - if padded then 8 else 0)) (hroom : 8 ≤ sp) :
    ∃ m', Instr.effects m (if padded then [.addWord 8 .rsp] else []) = some m' ∧
      m'.regs .rsp = BitVec.ofNat 64 sp ∧
      (∀ r, r ≠ .rsp → m'.regs r = m.regs r) ∧ m'.memory = m.memory ∧ m'.world = m.world := by
  cases padded with
  | false => exact ⟨m, rfl, hsp, fun _ _ => rfl, rfl, rfl⟩
  | true =>
    have hback : sp - 8 + 8 = sp := by omega
    refine ⟨_, rfl, ?_, fun r hr => ?_, rfl, rfl⟩
    · have hadd := ofNat_add_eight (sp - 8)
      rw [hback] at hadd
      simpa [hsp] using hadd
    · simp [Function.update_of_ne hr]

/-- The code of a call behind that of its arguments. -/
def callerCode (name : String) (count depth : Nat) : List Instr :=
  loadArguments count ++ (callCode name depth ++ [.push .rax])

/-- The arguments of a call are counted where it stands. -/
theorem argumentCount_callerCode {name : String} {count depth pc : Nat}
    (hcode : Stands code pc (instrLines (callerCode name count depth)))
    (hset : Settled (code.take pc)) (hcount : count ≤ passedRegs.length) :
    argumentCount (code.take (pc + (loadArguments count).length +
      (if Emit.needsPadding depth then [Instr.subWord 8 .rsp] else []).length + 1)) = count := by
  let padding := if Emit.needsPadding depth then [Instr.subWord 8 .rsp] else []
  have hpadding : padding = [] ∨ padding = [.subWord 8 .rsp] := by
    cases h : Emit.needsPadding depth <;> simp [padding, h]
  have hsplit : instrLines (callerCode name count depth) =
      (instrLines (loadArguments count) ++ (instrLines padding ++ [.instr (.moveWord 0 .rax)])) ++
        instrLines ([.call name] ++ (if Emit.needsPadding depth then [.addWord 8 .rsp] else []) ++
          [.push .rax]) := by
    simp [callerCode, callCode, padding]
  rw [hsplit] at hcode
  have htake := hcode.left.take
  simp only [List.length_append, List.length_map, List.length_singleton, ← Nat.add_assoc] at htake
  rw [htake]
  exact argumentCount_callCode hset hcount hpadding

/-- The call itself, with its arguments in their registers. -/
theorem run_callCode (hP : Backward callee code P) {name : String} {args : List Int64}
    {depth pc sp : Nat} {m : Machine σ} (hcode : Stands code pc (instrLines (callCode name depth)))
    (hcount : argumentCount (code.take (pc +
      (if Emit.needsPadding depth then [Instr.subWord 8 .rsp] else []).length + 1)) = args.length)
    (hvalues : (passedRegs.take args.length).map m.regs = args.map Int64.toBitVec)
    (hsp : m.regs .rsp = BitVec.ofNat 64 sp) (hroom : 8 ≤ sp)
    (h : ∀ m', m'.regs .rax = (callee name args m.world).1.toBitVec →
      m'.regs .rsp = BitVec.ofNat 64 sp → Keeps sp m m' →
      m'.world = (callee name args m.world).2 → P n (.at (pc + (callCode name depth).length) m')) :
    P n (.at pc m) := by
  obtain ⟨m₁, he₁, hsp₁, hother₁, hmem₁, hworld₁⟩ :=
    effects_padding hsp hroom (Emit.needsPadding depth)
  have hpad := hcode.instrs_left.instrs_left
  have hmid := hcode.instrs_left.instrs_right
  have hpassed : (passedRegs.take (argumentCount (code.take (pc +
      (if Emit.needsPadding depth then [Instr.subWord 8 .rsp] else []).length + 1)))).map
        (m₁.set .rax (Int64.toBitVec 0)).regs = args.map Int64.toBitVec := by
    have hregs : ∀ r ∈ passedRegs, r ≠ .rsp ∧ r ≠ .rax := by decide
    rw [hcount, ← hvalues]
    refine List.map_congr_left fun r hr => ?_
    obtain ⟨hne, hne'⟩ := hregs r (List.mem_of_mem_take hr)
    rw [Machine.set_regs, Function.update_of_ne hne', hother₁ r hne]
  refine hP.effects hpad he₁ (hP.effect hmid.head rfl ?_)
  refine hP.call hmid.tail.head hpassed fun m₂ hret => ?_
  obtain ⟨hvalue, hworld₂, hregs₂, hmem₂⟩ := hret
  have hback : (args.map Int64.toBitVec).map Int64.ofBitVec = args := by
    rw [List.map_map]
    exact List.map_id'' Int64.ofBitVec_toBitVec args
  rw [hback, Machine.set_world, hworld₁] at hvalue hworld₂
  have hsp₂ := (hregs₂ .rsp (by decide)).trans hsp₁
  obtain ⟨m₃, he₃, hsp₃, hother₃, hmem₃, hworld₃⟩ := effects_unpadding _ hsp₂ hroom
  have hkeeps : Keeps sp m m₃ := by
    have hkept : ∀ r ∈ keptRegs, r ≠ .rsp ∧ r ≠ .rax := by decide
    refine ⟨fun r hr => ?_, fun a ha => ?_⟩
    · obtain ⟨hne, hne'⟩ := hkept r hr
      rw [hother₃ r hne, hregs₂ r (List.mem_cons_of_mem _ hr), Machine.set_regs,
        Function.update_of_ne hne', hother₁ r hne]
    · -- the callee keeps memory from the stack pointer up, and padding only lowers it
      have hle : ((m₁.set .rax (Int64.toBitVec 0)).regs .rsp).toNat ≤ a := by
        rw [Machine.set_regs, Function.update_of_ne (by decide), hsp₁, BitVec.toNat_ofNat]
        exact (Nat.mod_le _ _).trans ((Nat.sub_le _ _).trans ha)
      rw [hmem₃, hmem₂ a hle, Machine.set_memory, hmem₁]
  have hgoal := h m₃ ((hother₃ .rax (by decide)).trans hvalue) hsp₃ hkeeps
    (hworld₃.trans hworld₂)
  have hunpad := hcode.instrs_right
  rw [callCode, List.length_append, List.length_append, ← Nat.add_assoc, ← Nat.add_assoc] at hgoal
  rw [List.length_append, ← Nat.add_assoc] at hunpad
  exact hP.effects hunpad he₃ hgoal

/-- The end of a call: the arguments are taken from the stack, the callee is called, and its value
is put on the stack. -/
theorem run_call (hP : Backward callee code P) {name : String} {args : List Int64}
    {depth pc sp : Nat} {m : Machine σ}
    (hcode : Stands code pc (instrLines (callerCode name args.length depth)))
    (hset : Settled (code.take pc)) (hargs : args.length ≤ passedRegs.length)
    (hstack : OnStack m sp args) (hroom : 8 * args.length ≤ sp) (hroom' : 8 ≤ sp) (hdvd : 8 ∣ sp)
    (hlt : sp < 2 ^ 64)
    (h : ∀ m', Pushed sp [(callee name args m.world).1] m m' →
      m'.world = (callee name args m.world).2 →
      P n (.at (pc + (callerCode name args.length depth).length) m')) :
    P n (.at pc m) := by
  have hlen : (passedRegs.take args.length).length = args.length := by simpa using hargs
  obtain ⟨m₁, he₁, hvalues, hsp₁, hother₁, hmem₁, hworld₁⟩ := effects_pops hstack hlen
    ((by decide : passedRegs.Nodup).sublist (List.take_sublist ..))
    (fun hr => absurd (List.mem_of_mem_take hr) (by decide)) hroom hdvd hlt
  have hkeeps₁ : Keeps sp m m₁ := by
    have hkept : ∀ r ∈ keptRegs, r ∉ passedRegs ∧ r ≠ .rsp := by decide
    refine .of_regs (fun r hr => ?_) hmem₁
    exact hother₁ r (fun hmem => (hkept r hr).1 (List.mem_of_mem_take hmem)) (hkept r hr).2
  refine hP.effects hcode.instrs_left he₁ ?_
  refine run_callCode hP hcode.instrs_right.instrs_left
    (argumentCount_callerCode hcode hset hargs) hvalues hsp₁ hroom' ?_
  intro m₂ hvalue hsp₂ hkeeps₂ hworld₂
  rw [hworld₁] at hvalue hworld₂
  obtain ⟨m₃, he₃, hpush, hworld₃⟩ := pushed_rax hsp₂ hvalue hlt hdvd hroom'
  refine hP.effect hcode.instrs_right.instrs_right.head he₃ ?_
  have hkeeps := (hkeeps₁.trans hkeeps₂ le_rfl).trans hpush.keeps le_rfl
  simpa [callerCode, Nat.add_assoc] using h m₃ ⟨hkeeps, hpush.stack⟩ (hworld₃.trans hworld₂)

mutual

/-- **The code of an expression computes it.**  If `P` holds wherever the machine is behind the
code with the value on the stack, and wherever it has trapped if there is no value, then `P` holds
where the code starts. -/
theorem run_expr (hP : Backward callee code P) (hf : f.Laid) :
    ∀ (e : Expr) {depth pc sp : Nat} {m : Machine σ},
      Stands code pc (instrLines (e.code f depth)) → Settled (code.take pc) → e.fault? f = none →
      Ready f base env sp m → 8 * e.room ≤ sp →
      Outcome (fun v w => ∀ m', Pushed sp [v] m m' → m'.world = w →
          P n (.at (pc + (e.code f depth).length) m'))
        (fun _ w => ∀ m', m'.world = w → P n (.trapped m')) (e.eval callee env m.world) →
      P n (.at pc m)
  | .num value, depth, pc, sp, m, hcode, _, _, hm, hroom, h => by
    rw [Expr.room] at hroom
    obtain ⟨m', he, hpush, hworld⟩ := pushed_rax (m := m.set .rax value.toBitVec) (v := value)
      (by simpa using hm.pointer) (by simp) hm.lt hm.dvd (by omega)
    have hkeeps : Keeps sp m (m.set .rax value.toBitVec) := .set (by decide) _
    have he' : Instr.effects m [.moveWord value .rax, .push .rax] = some m' :=
      (Instr.effects_singleton _ _).trans he
    rw [Expr.eval] at h
    exact hP.effects hcode he' (h m' ⟨hkeeps.trans hpush.keeps le_rfl, hpush.stack⟩ hworld)
  | .var id, depth, pc, sp, m, hcode, _, hfault, hm, hroom, h => by
    rw [Expr.room] at hroom
    have hid : id < f.vars.length := by
      by_contra hid
      simp [Expr.fault?, Function.fault?, hid] at hfault
    obtain ⟨m', he, hpush, hworld⟩ := effects_variable hf hm (by omega) hid
    rw [Expr.eval] at h
    exact hP.effects hcode he (h m' hpush hworld)
  | .binary op lhs rhs, depth, pc, sp, m, hcode, hset, hfault, hm, hroom, h => by
    rw [Expr.room] at hroom
    rw [Expr.fault?, Option.orElse_eq_none] at hfault
    have hpos := rhs.room_pos
    have hlt := hm.lt
    have hdvd := hm.dvd
    rw [Expr.eval, outcome_bind] at h
    simp only [outcome_bind] at h
    rw [Expr.code] at hcode h
    refine run_expr hP hf lhs hcode.instrs_left.instrs_left hset hfault.1 hm (by omega)
      (h.imp (fun a w h m₁ hpush₁ hworld₁ => ?_) fun _ _ h => h)
    subst hworld₁
    have hm₁ := hm.of_keeps hf hpush₁.keeps hpush₁.stack.2 (by omega) (by omega)
    have hset₁ := hset.behind hcode.instrs_left.instrs_left (settled_expr f depth lhs)
    rw [List.length_map] at hset₁
    refine run_expr hP hf rhs hcode.instrs_left.instrs_right hset₁ hfault.2 hm₁ (by omega)
      (h.imp (fun b w h m₂ hpush₂ hworld₂ => ?_) fun _ _ h => h)
    subst hworld₂
    have hpush := hpush₁.cons hpush₂
    have hend := hcode.instrs_right
    rw [List.length_append, ← Nat.add_assoc] at hend
    refine run_operation (a := a) (b := b) hP hend hpush.stack (by omega) hdvd hlt ?_ ?_
    · intro v hv m₃ hpush₃ hworld₃
      rw [hv] at h
      have hpc := h m₃ (hpush.replace hpush₃) hworld₃
      rwa [List.length_append, List.length_append, ← Nat.add_assoc, ← Nat.add_assoc] at hpc
    · intro x hx m₃ hworld₃
      rw [hx] at h
      exact h m₃ hworld₃
  | .call name args, depth, pc, sp, m, hcode, hset, hfault, hm, hroom, h => by
    rw [Expr.room] at hroom
    rw [Expr.fault?, emitted_convention.1] at hfault
    have hargs : args.length ≤ passedRegs.length := by
      by_contra hargs
      simp [hargs] at hfault
    rw [if_pos hargs] at hfault
    rw [Expr.eval, outcome_bind] at h
    rw [Expr.code, List.append_assoc] at hcode h
    refine run_exprs hP hf args hcode.instrs_left hset hfault hm (by omega)
      (h.imp (fun values w h hlen m₁ hpush₁ hworld₁ => ?_) fun _ _ h => h)
    subst hworld₁
    rw [outcome_modifyGet] at h
    have hset₁ := hset.behind hcode.instrs_left (settled_exprs f args depth)
    rw [List.length_map] at hset₁
    have hrooms := Expr.length_le_rooms args
    have hcaller := hcode.instrs_right
    rw [← hlen] at hcaller hargs hrooms h
    refine run_call hP hcaller hset₁ hargs hpush₁.stack (by omega) (by omega) hm.dvd hm.lt ?_
    intro m₂ hpush₂ hworld₂
    have hgoal := h m₂ (hpush₁.replace hpush₂) hworld₂
    rwa [List.length_append, ← Nat.add_assoc] at hgoal

/-- The code of expressions computes them, one after another. -/
theorem run_exprs (hP : Backward callee code P) (hf : f.Laid) :
    ∀ (es : List Expr) {depth pc sp : Nat} {m : Machine σ},
      Stands code pc (instrLines (Expr.codes f depth es)) → Settled (code.take pc) →
      Expr.faults? f es = none → Ready f base env sp m → 8 * Expr.rooms es ≤ sp →
      Outcome (fun vs w => vs.length = es.length → ∀ m', Pushed sp vs m m' → m'.world = w →
          P n (.at (pc + (Expr.codes f depth es).length) m'))
        (fun _ w => ∀ m', m'.world = w → P n (.trapped m')) (Expr.evals callee env es m.world) →
      P n (.at pc m)
  | [], depth, pc, sp, m, _, _, _, hm, _, h => by
    rw [Expr.evals] at h
    exact h rfl m ⟨.refl sp m, hm.pointer⟩ rfl
  | e :: es, depth, pc, sp, m, hcode, hset, hfault, hm, hroom, h => by
    rw [Expr.rooms] at hroom
    rw [Expr.faults?, Option.orElse_eq_none] at hfault
    have hpos := e.room_pos
    have hdvd := hm.dvd
    rw [Expr.evals, outcome_bind] at h
    rw [Expr.codes] at hcode h
    refine run_expr hP hf e hcode.instrs_left hset hfault.1 hm (by omega)
      (h.imp (fun v w h m₁ hpush₁ hworld₁ => ?_) fun _ _ h => h)
    subst hworld₁
    have hm₁ := hm.of_keeps hf hpush₁.keeps hpush₁.stack.2 (by omega) (by omega)
    have hset₁ := hset.behind hcode.instrs_left (settled_expr f depth e)
    rw [List.length_map] at hset₁
    rw [outcome_bind] at h
    refine run_exprs hP hf es hcode.instrs_right hset₁ hfault.2 hm₁ (by omega)
      (h.imp (fun vs w h hlen m₂ hpush₂ hworld₂ => ?_) fun _ _ h => h)
    have hgoal := h (by simpa using hlen) m₂ (hpush₁.cons hpush₂) hworld₂
    rwa [List.length_append, ← Nat.add_assoc] at hgoal

end

end

end Assembly
end MicroGo
