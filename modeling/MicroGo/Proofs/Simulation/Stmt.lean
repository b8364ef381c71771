import MicroGo.Proofs.Simulation.Expr

/-!
# Running the code of statements

While the body of a function runs, its variables lie in its frame and no operand lies on the stack
between two statements.  `Inside` says this of a machine and a store.  Code then corresponds to a
run of the reference semantics if it leads from machines inside one store to machines inside the
store that the run leaves: `Runs` for statements, which go on behind themselves or to the end of
the function, and `Tests` for conditions, which go to one of two places.

Statements are put together as runs are: one after another (`Runs.andThen`), by a condition
(`Tests.branch`), and in a loop (`runs_loop`).  Jumps and labels between them only change the place
from which a run starts or at which it ends (`Runs.earlier`, `Runs.later`).

## Loops

A loop that meets its bound in the reference semantics is still going on, and so is the machine.
Each round passes the label of the loop, so the count of `Backward` goes up by one with each round
that the reference semantics was allowed.  That is why everything below holds for all counts up to
the bound on the rounds.
-/

namespace MicroGo

open Assembly

/-! ## The stack that code needs -/

mutual

/-- How many words the code of a statement puts on the stack at most. -/
def Stmt.room : Stmt → Nat
  | .expr value => value.room
  | .assign _ value => value.room + 1
  | .ret value => value.room
  | .block body => Stmt.rooms body
  | .branch init cond body other =>
      max (max (Stmt.optRoom init) cond.room) (max (Stmt.rooms body) (Stmt.optRoom other))
  | .loop init cond post body =>
      max (max (Stmt.optRoom init) (cond.elim 0 Expr.room))
        (max (Stmt.rooms body) (Stmt.optRoom post))

/-- How many words the code of statements puts on the stack at most. -/
def Stmt.rooms : List Stmt → Nat
  | [] => 0
  | s :: ss => max (Stmt.room s) (Stmt.rooms ss)

/-- How many words the code of a statement that may be missing puts on the stack at most. -/
def Stmt.optRoom : Option Stmt → Nat
  | none => 0
  | some s => Stmt.room s

end

/-- The slots of a function lie inside its frame, and no two of them at one place. -/
structure Function.Separate (f : Function) : Prop extends f.Laid where
  nonneg : 0 ≤ f.frameSize
  apart : ∀ i < f.vars.length, ∀ j < f.vars.length, f.offset i = f.offset j → i = j

/-! ## Runs of the reference semantics -/

section

variable {σ : Type} {callee : Callee σ} {good : Completion → Store σ → Prop}
  {bad : Break → Store σ → Prop}

theorem outcome_value {good : Int64 → Store σ → Prop} (e : Expr) (s : Store σ) :
    Outcome good bad (Exec.value callee e s) ↔
      Outcome (fun v w => good v { s with world := w })
        (fun x w => bad (.fault x) { s with world := w }) (e.eval callee s.env s.world) := by
  unfold Exec.value
  cases e.eval callee s.env s.world with
  | ok v w => rfl
  | error x w => rfl

theorem outcome_andThen (first next : Exec σ Completion) (s : Store σ) :
    Outcome good bad (Exec.andThen first next s) ↔
      Outcome (fun completion t => match completion with
        | .normal => Outcome good bad (next t)
        | .returned v => good (.returned v) t) bad (first s) := by
  unfold Exec.andThen
  rw [outcome_bind]
  cases first s with
  | ok completion t => cases completion <;> rfl
  | error x t => rfl

end

namespace Assembly

variable {σ : Type} {callee : Callee σ} {code : List Line} {P : Nat → Config σ → Prop}
  {f : Function} {base sp exit : Nat} {m₀ : Machine σ}

/-! ## Machines and stores -/

/-- **The machine runs the body of a function**: the values of the variables lie in the frame, no
operands lie on the stack, and what the caller relies on is as it was in `m₀`. -/
structure Inside (f : Function) (base sp : Nat) (m₀ : Machine σ) (s : Store σ) (m : Machine σ) :
    Prop where
  ready : Ready f base s.env sp m
  world : m.world = s.world
  keeps : Keeps base m₀ m

/-- What has to hold where a statement ends. -/
def Behind (Q : Config σ → Prop) (f : Function) (base sp exit : Nat) (m₀ : Machine σ) (pc : Nat) :
    Completion → Store σ → Prop
  | .normal, s => ∀ m, Inside f base sp m₀ s m → Q (.at pc m)
  | .returned v, s =>
      ∀ m, Inside f base sp m₀ s m → m.regs .rax = v.toBitVec → Q (.at exit m)

/-- What has to hold where a run breaks off.  Where it is unfinished nothing is known of the
machine, but no step has to be shown either. -/
def Broken (P : Nat → Config σ → Prop) (k : Nat) : Break → Store σ → Prop
  | .fault _, s => ∀ m : Machine σ, m.world = s.world → P k (.trapped m)
  | .unfinished, _ => ∀ c, P 0 c

/-- **The code from `pc` to `pc'` does what `x` does.** -/
def Runs (P : Nat → Config σ → Prop) (f : Function) (base sp exit : Nat) (m₀ : Machine σ) (k : Nat)
    (x : Exec σ Completion) (pc pc' : Nat) : Prop :=
  ∀ s m, Inside f base sp m₀ s m →
    Outcome (Behind (P k) f base sp exit m₀ pc') (Broken P k) (x s) → P k (.at pc m)

/-- **The code from `pc` on tests what `test` tests**, and goes to `yes` or to `no`. -/
def Tests (P : Nat → Config σ → Prop) (f : Function) (base sp : Nat) (m₀ : Machine σ) (k : Nat)
    (test : Exec σ Bool) (pc yes no : Nat) : Prop :=
  ∀ s m, Inside f base sp m₀ s m →
    Outcome (fun b t => ∀ m', Inside f base sp m₀ t m' → P k (.at (if b then yes else no) m'))
      (Broken P k) (test s) → P k (.at pc m)

/-! ## Putting runs together -/

section

variable {k : Nat} {x y : Exec σ Completion} {test : Exec σ Bool} {pc pc' mid yes no : Nat}

theorem Runs.pure (pc : Nat) : Runs P f base sp exit m₀ k (pure .normal) pc pc :=
  fun _ m hm h => h m hm

/-- One run after another. -/
theorem Runs.andThen (hx : Runs P f base sp exit m₀ k x pc mid)
    (hy : Runs P f base sp exit m₀ k y mid pc') :
    Runs P f base sp exit m₀ k (Exec.andThen x y) pc pc' := by
  intro s m hm h
  rw [outcome_andThen] at h
  refine hx s m hm (h.imp (fun completion t ht => ?_) fun _ _ ht => ht)
  cases completion with
  | normal => exact fun m' hm' => hy t m' hm' ht
  | returned v => exact ht

/-- One of two runs, by a condition. -/
theorem Tests.branch (ht : Tests P f base sp m₀ k test pc yes no)
    (hx : Runs P f base sp exit m₀ k x yes pc') (hy : Runs P f base sp exit m₀ k y no pc') :
    Runs P f base sp exit m₀ k (do if ← test then x else y) pc pc' := by
  intro s m hm h
  rw [outcome_bind] at h
  refine ht s m hm (h.imp (fun b t hb m' hm' => ?_) fun _ _ hb => hb)
  cases b with
  | true => exact hx t m' hm' hb
  | false => exact hy t m' hm' hb

/-- A run that starts earlier, on lines that lead to its start. -/
theorem Runs.earlier (hx : Runs P f base sp exit m₀ k x mid pc')
    (h : ∀ m, P k (.at mid m) → P k (.at pc m)) : Runs P f base sp exit m₀ k x pc pc' :=
  fun s m hm hs => h m (hx s m hm hs)

/-- A run that ends later, on lines that lead from its end. -/
theorem Runs.later (hx : Runs P f base sp exit m₀ k x pc mid)
    (h : ∀ m, P k (.at pc' m) → P k (.at mid m)) : Runs P f base sp exit m₀ k x pc pc' := by
  intro s m hm hs
  refine hx s m hm (hs.imp (fun completion t ht => ?_) fun _ _ ht => ht)
  cases completion with
  | normal => exact fun m' hm' => h m' (ht m' hm')
  | returned v => exact ht

/-- **Conditionals.**  Both cases go on behind the last label, one of them by the jump to it. -/
theorem runs_branch (hP : Backward callee code P) {other final : Label} {jumpAt doneAt : Nat}
    (hjump : code[jumpAt]? = some (.instr (.jump final)))
    (hother : code[jumpAt + 1]? = some (.label other))
    (hfinal : code[doneAt]? = some (.label final)) (hres : resolve code final = some doneAt)
    (htest : Tests P f base sp m₀ k test pc yes (jumpAt + 1))
    (hx : Runs P f base sp exit m₀ k x yes jumpAt)
    (hy : Runs P f base sp exit m₀ k y (jumpAt + 1 + 1) doneAt) :
    Runs P f base sp exit m₀ k (do if ← test then x else y) pc (doneAt + 1) := by
  have hskip : ∀ m, P k (.at (doneAt + 1) m) → P k (.at doneAt m) := fun m h =>
    hP.less (hP.skip hfinal (by simp) h)
  have hx' := hx.later fun m h => hP.jump hjump hres (hskip m h)
  have hy' := hy.later hskip
  exact htest.branch hx' (hy'.earlier fun m h => hP.less (hP.skip hother (by simp) h))

/-- **Loops.**  If the code of the test and that of a round do what they should for all counts up to
a bound, then so does the loop, for counts up to the number of its rounds. -/
theorem runs_loop (hP : Backward callee code P) {bound start back : Nat} {l : Label}
    (hlabel : code[start]? = some (.label l)) (hjump : code[back]? = some (.instr (.jump l)))
    (hl : resolve code l = some start)
    (htest : ∀ k ≤ bound, Tests P f base sp m₀ k test (start + 1) mid pc')
    (hround : ∀ k ≤ bound, Runs P f base sp exit m₀ k x mid back) :
    ∀ {rounds k : Nat}, k ≤ rounds → rounds ≤ bound →
      Runs P f base sp exit m₀ k (Exec.repeatWhile test x rounds) start pc' := by
  intro rounds
  induction rounds with
  | zero =>
    intro k hk _ s m _ h
    rw [Nat.le_zero.mp hk]
    exact h _
  | succ rounds ih =>
    intro k hk hbound s m hm h
    -- behind the label one step less is asked for
    have hless : P (k - 1) (.at (start + 1) m) := by
      have hle : k - 1 ≤ bound := by omega
      have hagain := (hround (k - 1) hle).later (fun m' hm' => hP.jump hjump hl hm')
        |>.andThen (ih (by omega) (by omega))
      refine (htest (k - 1) hle).branch hagain (.pure pc') s m hm (h.imp ?_ ?_)
      · intro completion t ht
        cases completion with
        | normal => exact fun m' hm' => hP.le (Nat.sub_le k 1) (ht m' hm')
        | returned v => exact fun m' hm' hax => hP.le (Nat.sub_le k 1) (ht m' hm' hax)
      · intro b t ht
        cases b with
        | fault x => exact fun m' hm' => hP.le (Nat.sub_le k 1) (ht m' hm')
        | unfinished => exact ht
    exact hP.le (by omega) (hP.skip hlabel (by simp) hless)

end

/-! ## Single statements -/

section

variable {k : Nat} {pc : Nat} {s : Store σ} {m : Machine σ}

/-- A machine inside a store stays inside when registers change that nobody relies on. -/
theorem Inside.of_keeps (hf : f.Separate) (h : Inside f base sp m₀ s m) {m' : Machine σ} {w : σ}
    (hkeeps : Keeps sp m m') (hsp : m'.regs .rsp = BitVec.ofNat 64 sp) (hworld : m'.world = w) :
    Inside f base sp m₀ { s with world := w } m' where
  ready := h.ready.of_keeps hf.toLaid hkeeps hsp h.ready.dvd le_rfl
  world := hworld
  keeps := by
    have := h.ready.below
    have := hf.nonneg
    exact h.keeps.trans hkeeps (by omega)

/-- The code that brings the value of an expression into `rax`. -/
def valueCode (f : Function) (e : Expr) : List Instr :=
  e.code f 0 ++ [.pop .rax]

/-- A value taken from the stack into `rax`. -/
theorem run_value (hP : Backward callee code P) (hf : f.Separate) {e : Expr}
    (hcode : Stands code pc (instrLines (valueCode f e))) (hset : Settled (code.take pc))
    (hfault : e.fault? f = none) (hroom : 8 * e.room ≤ sp) (hm : Inside f base sp m₀ s m)
    (h : Outcome (fun v t => ∀ m', Inside f base sp m₀ t m' → m'.regs .rax = v.toBitVec →
        P k (.at (pc + (valueCode f e).length) m'))
      (Broken P k) (Exec.value callee e s)) : P k (.at pc m) := by
  have hpos := e.room_pos
  have hlt := hm.ready.lt
  have hdvd := hm.ready.dvd
  rw [outcome_value, ← hm.world] at h
  refine run_expr hP hf.toLaid e hcode.instrs_left hset hfault hm.ready hroom
    (h.imp (fun v w h m₁ hpush hworld => ?_) fun _ _ h => h)
  have hpop := effect_pop hpush.stack.2 (by omega) (by omega) .rax
  have hback : sp - 8 + 8 = sp := by omega
  rw [hback] at hpop
  refine hP.effect hcode.instrs_right.head hpop ?_
  rw [valueCode, List.length_append, ← Nat.add_assoc] at h
  refine h _ (hm.of_keeps hf ((hpush.keeps.trans (.set (by decide) _) le_rfl).trans
    (.set (by decide) _) le_rfl) (by simp) hworld) ?_
  simpa using hpush.stack.1

theorem runs_expr (hP : Backward callee code P) (hf : f.Separate) {e : Expr}
    (hcode : Stands code pc (instrLines (valueCode f e))) (hset : Settled (code.take pc))
    (hfault : e.fault? f = none) (hroom : 8 * e.room ≤ sp) (rounds : Nat) :
    Runs P f base sp exit m₀ k (Stmt.exec callee rounds (.expr e)) pc
      (pc + (valueCode f e).length) := by
  intro s m hm h
  rw [Stmt.exec, outcome_bind] at h
  exact run_value hP hf hcode hset hfault hroom hm
    (h.imp (fun _ _ h m' hm' _ => h m' hm') fun _ _ h => h)

theorem runs_ret (hP : Backward callee code P) (hf : f.Separate) {e : Expr} {pc' : Nat}
    (hcode : Stands code pc (instrLines (e.code f 0 ++ [.pop .rax, .jump (.exit f.name)])))
    (hset : Settled (code.take pc)) (hfault : e.fault? f = none) (hroom : 8 * e.room ≤ sp)
    (hexit : resolve code (.exit f.name) = some exit) (rounds : Nat) :
    Runs P f base sp exit m₀ k (Stmt.exec callee rounds (.ret e)) pc pc' := by
  intro s m hm h
  rw [Stmt.exec, outcome_bind] at h
  have hsplit : e.code f 0 ++ [.pop .rax, .jump (.exit f.name)] =
      valueCode f e ++ [.jump (.exit f.name)] := by
    simp [valueCode]
  rw [hsplit] at hcode
  refine run_value hP hf hcode.instrs_left hset hfault hroom hm
    (h.imp (fun _ _ h m' hm' hax => ?_) fun _ _ h => h)
  exact hP.jump hcode.instrs_right.head hexit (h m' hm' hax)

/-- A condition is tested by comparing its value with zero. -/
theorem tests_jumpUnless (hP : Backward callee code P) (hf : f.Separate) {cond : Expr}
    {target : Label}
    {yes no : Nat} (hcode : Stands code pc (instrLines (jumpUnlessCode f cond target)))
    (hset : Settled (code.take pc)) (hfault : cond.fault? f = none) (hroom : 8 * cond.room ≤ sp)
    (hyes : yes = pc + (instrLines (jumpUnlessCode f cond target)).length)
    (hno : resolve code target = some no) :
    Tests P f base sp m₀ k (Exec.holds callee (some cond)) pc yes no := by
  intro s m hm h
  rw [Exec.holds, outcome_bind] at h
  have hsplit : jumpUnlessCode f cond target =
      valueCode f cond ++ [.compareWord 0 .rax, .jumpEqual target] := by
    simp [jumpUnlessCode, valueCode]
  rw [List.length_map, hsplit] at hyes
  rw [hsplit] at hcode
  refine run_value hP hf hcode.instrs_left hset hfault hroom hm
    (h.imp (fun v t h m₁ hm₁ hax => ?_) fun _ _ h => h)
  have hcompare := hcode.instrs_right
  refine hP.effect hcompare.head rfl (hP.jumpEqual hcompare.tail.head rfl hno ?_)
  have hzero : (Flags.ofSub (m₁.regs .rax) (Int64.toBitVec 0)).zero = decide (v = 0) := by
    rw [hax, zero_ofSub]
  have hm₂ : Inside f base sp m₀ t
      (m₁.setFlags (some (.ofSub (m₁.regs .rax) (Int64.toBitVec 0)))) :=
    hm₁.of_keeps hf (.of_regs (fun _ _ => rfl) rfl) hm₁.ready.pointer hm₁.world
  have hgoal := h _ hm₂
  rw [hyes, List.length_append, ← Nat.add_assoc] at hgoal
  rw [hzero]
  by_cases hv : v = 0
  · simpa [hv] using hgoal
  · simpa [hv] using hgoal

/-- A condition that may be missing. -/
theorem tests_leaveUnless (hP : Backward callee code P) (hf : f.Separate) {cond : Option Expr}
    {target : Label} {yes no : Nat}
    (hcode : Stands code pc (instrLines (leaveUnlessCode f cond target)))
    (hset : Settled (code.take pc)) (hfault : cond.bind (Expr.fault? f) = none)
    (hroom : 8 * cond.elim 0 Expr.room ≤ sp)
    (hyes : yes = pc + (instrLines (leaveUnlessCode f cond target)).length)
    (hno : resolve code target = some no) :
    Tests P f base sp m₀ k (Exec.holds callee cond) pc yes no := by
  cases cond with
  | none =>
    intro s m hm h
    have hgoal := h m hm
    rwa [hyes] at hgoal
  | some cond => exact tests_jumpUnless hP hf hcode hset hfault hroom hyes hno

/-- Storing a value in the slot of a variable changes its value and no other. -/
theorem Ready.assign {env : Env} (hf : f.Separate) (h : Ready f base env sp m) {id : VarId}
    (hid : id < f.vars.length) (v : Int64) :
    Ready f base (Function.update env id v) sp (m.write (f.slot base id) v.toBitVec) := by
  refine ⟨⟨h.frame.pointer, fun i hi => ?_⟩, h.base_lt, h.base_dvd, h.pointer, h.lt, h.dvd,
    h.below⟩
  by_cases hii : i = id
  · subst hii
    simp
  · have hne : f.slot base i ≠ f.slot base id := by
      intro heq
      obtain ⟨hlow, hhigh, -⟩ := h.slot_bounds hf.toLaid hi
      obtain ⟨-, hi₁, hi₂⟩ := hf.slot i hi
      obtain ⟨-, hid₁, hid₂⟩ := hf.slot id hid
      have hbelow := h.below
      refine hii (hf.apart i hi id hid ?_)
      unfold Function.slot at heq
      omega
    simp [Function.update_of_ne hne, Function.update_of_ne hii, h.frame.slots i hi]

/-- Storing a value in the slot of a variable assigns to it. -/
theorem Inside.assign (hf : f.Separate) (h : Inside f base sp m₀ s m) {id : VarId}
    (hid : id < f.vars.length) (v : Int64) :
    Inside f base sp m₀ (s.assign id v) (m.write (f.slot base id) v.toBitVec) := by
  obtain ⟨-, hhigh, -⟩ := h.ready.slot_bounds hf.toLaid hid
  refine ⟨h.ready.assign hf hid v, h.world, h.keeps.regs, fun a ha => ?_⟩
  have hne : a ≠ f.slot base id := by omega
  simp [Function.update_of_ne hne, h.keeps.memory a ha]

/-- The code of an assignment. -/
def assignCode (f : Function) (target : VarId) (value : Expr) : List Instr :=
  [.slotAddress (f.offset target) .rax, .push .rax] ++ value.code f 1 ++
    [.pop .rdi, .pop .rax, .store .rdi .rax]

theorem runs_assign (hP : Backward callee code P) (hf : f.Separate) {target : VarId} {e : Expr}
    (hcode : Stands code pc (instrLines (assignCode f target e))) (hset : Settled (code.take pc))
    (htarget : target < f.vars.length) (hfault : e.fault? f = none) (hroom : 8 * (e.room + 1) ≤ sp)
    (rounds : Nat) :
    Runs P f base sp exit m₀ k (Stmt.exec callee rounds (.assign target e)) pc
      (pc + (assignCode f target e).length) := by
  intro s m hm h
  have hpos := e.room_pos
  have hlt := hm.ready.lt
  have hdvd := hm.ready.dvd
  rw [Stmt.exec, outcome_bind, outcome_value, ← hm.world] at h
  obtain ⟨m₁, he₁, hpush₁, hworld₁⟩ :=
    effects_address hf.toLaid hm.ready (by omega) htarget
  have hm₁ := hm.ready.of_keeps hf.toLaid hpush₁.keeps hpush₁.stack.2 (by omega) (by omega)
  rw [← hworld₁] at h
  refine hP.effects hcode.instrs_left.instrs_left he₁ ?_
  have hset₁ := hset.behind hcode.instrs_left.instrs_left
    (settled_of_getLast? (l := .instr (.push .rax)) rfl (by decide))
  refine run_expr hP hf.toLaid e hcode.instrs_left.instrs_right hset₁ hfault hm₁ (by omega)
    (h.imp (fun v w h m₂ hpush₂ hworld₂ => ?_) fun _ _ h => h)
  have hpush := hpush₁.cons hpush₂
  obtain ⟨m₃, hpops, hregs, hsp₃, hother, hmem₃, hworld₃⟩ := effects_pops hpush.stack
    (show [Reg.rax, .rdi].length = _ from rfl) (by decide) (by decide)
    (show 8 * 2 ≤ sp by omega) hdvd hlt
  have hax : m₃.regs .rax = BitVec.ofNat 64 (f.slot base target) := (List.cons.inj hregs).1
  have hdi : m₃.regs .rdi = v.toBitVec := (List.cons.inj (List.cons.inj hregs).2).1
  obtain ⟨-, hhigh, hslot⟩ := hm.ready.slot_bounds hf.toLaid htarget
  have hbase := hm.ready.base_lt
  have he₃ : (Instr.store .rdi .rax).effect m₃ =
      some (m₃.write (f.slot base target) v.toBitVec) := by
    rw [Instr.effect, hax, hdi, Machine.store_ofNat (by omega) hslot]
  have he : Instr.effects m₂ [.pop .rdi, .pop .rax, .store .rdi .rax] =
      some (m₃.write (f.slot base target) v.toBitVec) := by
    have happend := Instr.effects_append m₂ [.pop .rdi, .pop .rax] [.store .rdi .rax]
    rw [show Instr.effects m₂ [.pop .rdi, .pop .rax] = some m₃ from hpops, Option.bind_some,
      Instr.effects_singleton, he₃] at happend
    exact happend
  have hkeeps : Keeps sp m m₃ := by
    have hkept : ∀ r ∈ keptRegs, r ∉ [Reg.rax, .rdi] ∧ r ≠ .rsp := by decide
    exact hpush.keeps.trans (.of_regs (fun r hr => hother r (hkept r hr).1 (hkept r hr).2) hmem₃)
      le_rfl
  have hm₃ := hm.of_keeps hf hkeeps hsp₃ (hworld₃.trans hworld₂)
  have hend := hcode.instrs_right
  have hgoal := h _ (hm₃.assign hf htarget v)
  rw [List.length_append, ← Nat.add_assoc] at hend
  rw [assignCode, List.length_append, List.length_append, ← Nat.add_assoc, ← Nat.add_assoc]
    at hgoal
  exact hP.effects hend he hgoal

end

/-! ## All statements -/

mutual

/-- The code of a statement does not end in loading an argument. -/
theorem settled_stmt (f : Function) : ∀ (s : Stmt) (n : Nat), Settled (s.code f n)
  | .expr value, n =>
    settled_of_getLast? (l := .instr (.pop .rax)) (by simp [Stmt.code]) (by decide)
  | .assign target value, n =>
    settled_of_getLast? (l := .instr (.store .rdi .rax))
      (by simp [Stmt.code, List.getLast?_cons]) (by decide)
  | .ret value, n =>
    settled_of_getLast? (l := .instr (.jump (.exit f.name))) (by simp [Stmt.code]) (by simp)
  | .block body, n => settled_stmts f body n
  | .branch init cond body other, n =>
    settled_of_getLast? (l := .label (.done n)) (by simp [Stmt.code, List.getLast?_cons]) (by simp)
  | .loop init cond post body, n =>
    settled_of_getLast? (l := .label (.done n)) (by simp [Stmt.code, List.getLast?_cons]) (by simp)

theorem settled_stmts (f : Function) : ∀ (ss : List Stmt) (n : Nat), Settled (Stmt.codes f n ss)
  | [], _ => settled_nil
  | s :: ss, n => by
    rw [Stmt.codes]
    exact (settled_stmt f s n).append (settled_stmts f ss _)

end

theorem settled_optStmt (f : Function) (s : Option Stmt) (n : Nat) :
    Settled (Stmt.optCode f n s) := by
  cases s with
  | none => exact settled_nil
  | some s => exact settled_stmt f s n

/-- The code of a condition ends in a jump. -/
theorem settled_leaveUnless (f : Function) (cond : Option Expr) (target : Label) :
    Settled (instrLines (leaveUnlessCode f cond target)) := by
  cases cond with
  | none => exact settled_nil
  | some cond =>
    exact settled_of_getLast? (l := .instr (.jumpEqual target))
      (by simp [leaveUnlessCode, jumpUnlessCode]) (by simp)

section

variable {k n : Nat} {pc pc' rounds : Nat}

mutual

/-- **The code of a statement does what the statement does.** -/
theorem runs_stmt (hP : Backward callee code P) (hf : f.Separate) (hnodup : (labels code).Nodup)
    (hexit : resolve code (.exit f.name) = some exit) : ∀ (s : Stmt) {n pc pc' k : Nat},
      Stands code pc (s.code f n) → Settled (code.take pc) → s.fault? f = none →
      8 * s.room ≤ sp → k ≤ rounds → pc' = pc + (s.code f n).length →
      Runs P f base sp exit m₀ k (s.exec callee rounds) pc pc'
  | .expr value, n, pc, pc', k, hcode, hset, hfault, hroom, _, hpc => by
    rw [Stmt.room] at hroom
    rw [hpc, Stmt.code, List.length_map]
    exact runs_expr hP hf hcode hset hfault hroom rounds
  | .assign target value, n, pc, pc', k, hcode, hset, hfault, hroom, _, hpc => by
    rw [Stmt.fault?, Option.orElse_eq_none] at hfault
    have htarget : target < f.vars.length := by
      by_contra hid
      simp [Function.fault?, hid] at hfault
    rw [hpc, Stmt.code, List.length_map]
    exact runs_assign hP hf hcode hset htarget hfault.2 hroom rounds
  | .ret value, n, pc, pc', k, hcode, hset, hfault, hroom, _, hpc =>
    runs_ret hP hf hcode hset hfault hroom hexit rounds
  | .block body, n, pc, pc', k, hcode, hset, hfault, hroom, hk, hpc =>
    runs_stmts hP hf hnodup hexit body hcode hset hfault hroom hk hpc
  | .branch init cond body other, n, pc, pc', k, hcode, hset, hfault, hroom, hk, hpc => by
    simp only [Stmt.fault?, Option.orElse_eq_none] at hfault
    obtain ⟨hinit, hcond, hbody, hother⟩ := hfault
    rw [Stmt.room] at hroom
    rw [Stmt.code] at hcode hpc
    simp only [List.length_append, ← Nat.add_assoc] at hpc
    have htest := hcode.right
    have hjump := htest.right.right
    have hlast := hjump.right.right
    have hset₁ := hset.behind hcode.left (settled_optStmt f init _)
    have hset₂ := hset₁.behind htest.left (settled_leaveUnless f (some cond) _)
    have hset₃ := (hset₂.behind htest.right.left (settled_stmts f body _)).behind hjump.left
      (settled_of_getLast? (l := .label (.otherwise n)) rfl (by simp))
    rw [Stmt.exec, hpc]
    refine (runs_optStmt hP hf hnodup hexit init hcode.left hset hinit (by omega) hk rfl).andThen ?_
    refine runs_branch hP hjump.head hjump.tail.head hlast.head (hlast.resolve hnodup)
      (tests_jumpUnless hP hf htest.left hset₁ hcond (by omega) rfl
        (hjump.tail.resolve hnodup)) ?_ ?_
    · exact runs_stmts hP hf hnodup hexit body htest.right.left hset₂ hbody (by omega) hk rfl
    · exact runs_optStmt hP hf hnodup hexit other hjump.right.left hset₃ hother (by omega) hk rfl
  | .loop init cond post body, n, pc, pc', k, hcode, hset, hfault, hroom, hk, hpc => by
    simp only [Stmt.fault?, Option.orElse_eq_none] at hfault
    obtain ⟨hinit, hcond, hbody, hpost⟩ := hfault
    rw [Stmt.room] at hroom
    rw [Stmt.code] at hcode hpc
    simp only [List.length_append, ← Nat.add_assoc] at hpc
    have hstart := hcode.right
    have htest := hstart.right
    have hround := htest.right
    have hback := hround.right.right
    have hset₁ := (hset.behind hcode.left (settled_optStmt f init _)).behind hstart.left
      (settled_of_getLast? (l := .label (.begin n)) rfl (by simp))
    have hset₂ := hset₁.behind htest.left (settled_leaveUnless f cond _)
    have hset₃ := hset₂.behind hround.left (settled_stmts f body _)
    rw [Stmt.exec, hpc]
    refine (runs_optStmt hP hf hnodup hexit init hcode.left hset hinit (by omega) hk rfl).andThen ?_
    have hchecks : ∀ j ≤ rounds, Tests P f base sp m₀ j (Exec.holds callee cond) _ _ _ :=
      fun j _ => tests_leaveUnless hP hf htest.left hset₁ hcond (by omega) rfl
        (hback.tail.resolve hnodup)
    have hrounds : ∀ j ≤ rounds, Runs P f base sp exit m₀ j
        (Exec.andThen (Stmt.execs callee rounds body) (Stmt.optExec callee rounds post)) _ _ :=
      fun j hj => (runs_stmts hP hf hnodup hexit body hround.left hset₂ hbody (by omega) hj
        rfl).andThen (runs_optStmt hP hf hnodup hexit post hround.right.left hset₃ hpost (by omega)
          hj rfl)
    refine Runs.later (runs_loop hP hstart.head hback.head (hstart.resolve hnodup) hchecks hrounds
      hk le_rfl) fun m h => ?_
    exact hP.less (hP.skip hback.tail.head (by simp) h)

/-- The code of statements does what the statements do. -/
theorem runs_stmts (hP : Backward callee code P) (hf : f.Separate) (hnodup : (labels code).Nodup)
    (hexit : resolve code (.exit f.name) = some exit) : ∀ (ss : List Stmt) {n pc pc' k : Nat},
      Stands code pc (Stmt.codes f n ss) → Settled (code.take pc) → Stmt.faults? f ss = none →
      8 * Stmt.rooms ss ≤ sp → k ≤ rounds → pc' = pc + (Stmt.codes f n ss).length →
      Runs P f base sp exit m₀ k (Stmt.execs callee rounds ss) pc pc'
  | [], _, pc, _, _, _, _, _, _, _, hpc => hpc ▸ .pure pc
  | s :: ss, n, pc, pc', k, hcode, hset, hfault, hroom, hk, hpc => by
    rw [Stmt.faults?, Option.orElse_eq_none] at hfault
    rw [Stmt.rooms] at hroom
    rw [Stmt.codes] at hcode hpc
    rw [Stmt.execs]
    refine (runs_stmt hP hf hnodup hexit s hcode.left hset hfault.1 (by omega) hk rfl).andThen ?_
    refine runs_stmts hP hf hnodup hexit ss hcode.right
      (hset.behind hcode.left (settled_stmt f s n)) hfault.2 (by omega) hk ?_
    rw [hpc, List.length_append, Nat.add_assoc]

/-- The code of a statement that may be missing does what the statement does. -/
theorem runs_optStmt (hP : Backward callee code P) (hf : f.Separate) (hnodup : (labels code).Nodup)
    (hexit : resolve code (.exit f.name) = some exit) : ∀ (s : Option Stmt) {n pc pc' k : Nat},
      Stands code pc (Stmt.optCode f n s) → Settled (code.take pc) → Stmt.optFault? f s = none →
      8 * Stmt.optRoom s ≤ sp → k ≤ rounds → pc' = pc + (Stmt.optCode f n s).length →
      Runs P f base sp exit m₀ k (Stmt.optExec callee rounds s) pc pc'
  | none, _, pc, _, _, _, _, _, _, _, hpc => hpc ▸ .pure pc
  | some s, _, _, _, _, hcode, hset, hfault, hroom, hk, hpc =>
    runs_stmt hP hf hnodup hexit s hcode hset hfault hroom hk hpc

end

end

end Assembly
end MicroGo
