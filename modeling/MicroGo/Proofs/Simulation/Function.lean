import MicroGo.Proofs.Simulation.Stmt

/-!
# Running functions

A function that is called finds its arguments in registers and the address to return to on top of
the stack.  It saves six registers, sets up its frame below them, copies the arguments into their
slots, and runs its body; every way out of the body leads to the end of the function, where the
registers are restored and control goes back to the caller.

`run_function` says what this comes to: whatever the body does to the values of the variables, in
the reference semantics, is what the caller gets.  The locals start out as whatever lies in memory
where their slots are.

The registers are saved in the order in which the operand stack holds operands, so setting up and
giving up the frame are pushing and popping operands (`effects_pushes`, `effects_pops`).
-/

namespace MicroGo

open Assembly

/-- The stack that a function needs, in bytes: the saved registers, the frame, and the operands. -/
def Function.stackNeed (f : Function) : Nat :=
  48 + f.frameSize.toNat + 8 * Stmt.rooms f.body

namespace Assembly

variable {σ : Type} {callee : Callee σ} {code : List Line} {P : Nat → Config σ → Prop}
  {f : Function} {base sp : Nat} {env : Env} {m m' : Machine σ}

/-! ## Calls and returns -/

/-- **The function has been called**: the arguments are in their registers, and the stack is aligned
to words and large enough. -/
structure Called (f : Function) (args : List Int64) (m : Machine σ) : Prop where
  arguments : (passedRegs.take args.length).map m.regs = args.map Int64.toBitVec
  aligned : 8 ∣ (m.regs .rsp).toNat
  room : f.stackNeed ≤ (m.regs .rsp).toNat

/-- **The function has returned** a value, and left everything else that the caller relies on as it
was in `m`. -/
structure Returned (m : Machine σ) (value : Int64) (world : σ) (m' : Machine σ) : Prop where
  value : m'.regs .rax = value.toBitVec
  world : m'.world = world
  pointer : m'.regs .rsp = m.regs .rsp + 8
  keeps : Keeps (m.regs .rsp).toNat m m'

/-- What lies in memory where the slots of the function will be. -/
def residue (f : Function) (m : Machine σ) : Env :=
  fun id => .ofBitVec (m.memory (f.slot ((m.regs .rsp).toNat - 48) id))

/-! ## Setting up the frame -/

/-- The registers that are saved, in the order of saving. -/
def savedInOrder : List Reg :=
  savedRegs ++ [.rbp]

/-- Pushing registers puts what they hold on the stack. -/
theorem effects_pushes : ∀ {rs : List Reg} {m : Machine σ} {sp : Nat},
    m.regs .rsp = BitVec.ofNat 64 sp → .rsp ∉ rs → 8 * rs.length ≤ sp → 8 ∣ sp → sp < 2 ^ 64 →
    ∃ m', Instr.effects m (rs.map .push) = some m' ∧
      OnStack m' sp (rs.map fun r => .ofBitVec (m.regs r)) ∧
      (∀ r, r ≠ .rsp → m'.regs r = m.regs r) ∧
      (∀ a, a < sp - 8 * rs.length ∨ sp ≤ a → m'.memory a = m.memory a) ∧ m'.world = m.world
  | [], m, sp, hsp, _, _, _, _ => ⟨m, rfl, hsp, fun _ _ => rfl, fun _ _ => rfl, rfl⟩
  | r :: rs, m, sp, hsp, hrsp, hroom, hdvd, hlt => by
    rw [List.mem_cons, not_or] at hrsp
    rw [List.length_cons] at hroom
    have hpush := effect_push hsp hlt hdvd (by omega) r
    let m₁ := (m.write (sp - 8) (m.regs r)).set .rsp (BitVec.ofNat 64 (sp - 8))
    have hsp₁ : m₁.regs .rsp = BitVec.ofNat 64 (sp - 8) := by simp [m₁]
    have hkeep : ∀ x, x ≠ .rsp → m₁.regs x = m.regs x := fun x hx => by
      simp [m₁, Function.update_of_ne hx]
    obtain ⟨m₂, he, hstack, hregs, hmem, hworld⟩ := effects_pushes hsp₁ hrsp.2
      (by omega) (by omega) (by omega)
    refine ⟨m₂, ?_, ⟨?_, ?_⟩, ?_, ?_, hworld⟩
    · rw [List.map_cons, Instr.effects_cons, hpush, Option.bind_some, he]
    · rw [hmem _ (Or.inr le_rfl)]
      simp [m₁]
    · have hmap : (rs.map fun x => Int64.ofBitVec (m₁.regs x)) =
          rs.map fun x => .ofBitVec (m.regs x) :=
        List.map_congr_left fun x hx => by rw [hkeep x fun h => hrsp.2 (h ▸ hx)]
      rwa [hmap] at hstack
    · intro x hx
      rw [hregs x hx, hkeep x hx]
    · intro a ha
      rw [List.length_cons] at ha
      have hne : a ≠ sp - 8 := by omega
      rw [hmem a (by omega)]
      simp [m₁, Function.update_of_ne hne]

/-- Values stay on the stack as long as memory there stays. -/
theorem OnStack.congr {vs : List Int64} (h : OnStack m sp vs) (hroom : 8 * vs.length ≤ sp)
    (hmem : ∀ a, sp - 8 * vs.length ≤ a → m'.memory a = m.memory a)
    (hsp : m'.regs .rsp = BitVec.ofNat 64 (sp - 8 * vs.length)) : OnStack m' sp vs := by
  induction vs generalizing sp with
  | nil => exact hsp
  | cons v vs ih =>
    rw [List.length_cons] at hroom hmem hsp
    have hshift : sp - 8 - 8 * vs.length = sp - 8 * (vs.length + 1) := by omega
    refine ⟨(hmem _ (by omega)).trans h.1, ih h.2 (by omega) ?_ ?_⟩
    · rwa [hshift]
    · rwa [hshift]

/-- Reserving the frame lowers the stack pointer by its size. -/
theorem effects_reserve (hf : 0 ≤ f.frameSize) (hsp : m.regs .rsp = BitVec.ofNat 64 base)
    (hbase : f.frameSize.toNat ≤ base) (hlt : base < 2 ^ 64) :
    ∃ m', Instr.effects m (if 0 < f.frameSize then [.subWord f.frameSize .rsp] else []) = some m' ∧
      m'.regs .rsp = BitVec.ofNat 64 (base - f.frameSize.toNat) ∧
      (∀ r, r ≠ .rsp → m'.regs r = m.regs r) ∧ m'.memory = m.memory ∧ m'.world = m.world := by
  by_cases hsize : 0 < f.frameSize
  · have hword : BitVec.ofInt 64 f.frameSize = BitVec.ofNat 64 f.frameSize.toNat := by
      rw [← BitVec.ofInt_natCast, Int.toNat_of_nonneg hf]
    rw [if_pos hsize]
    refine ⟨_, rfl, ?_, fun r hr => ?_, rfl, rfl⟩
    · rw [← BitVec.ofNat_sub_ofNat_of_le _ _ (by omega) hbase, ← hword]
      simp [hsp]
    · simp [Function.update_of_ne hr]
  · have hzero : f.frameSize.toNat = 0 := by omega
    rw [if_neg hsize, hzero]
    exact ⟨m, rfl, hsp, fun _ _ => rfl, rfl, rfl⟩

/-- The variables from number `i` on have the values `vs`. -/
def bindFrom (i : Nat) (vs : List Int64) (env : Env) : Env :=
  fun id => if i ≤ id then vs.getD (id - i) (env id) else env id

theorem bindFrom_cons (i : Nat) (v : Int64) (vs : List Int64) (env : Env) :
    bindFrom (i + 1) vs (Function.update env i v) = bindFrom i (v :: vs) env := by
  funext id
  rcases Nat.lt_trichotomy id i with hlt | rfl | hgt
  · simp [bindFrom, Function.update_of_ne (Nat.ne_of_lt hlt), Nat.not_le.mpr hlt,
      Nat.not_le.mpr (Nat.lt_succ_of_lt hlt)]
  · simp [bindFrom]
  · obtain ⟨d, rfl⟩ := Nat.exists_eq_add_of_lt hgt
    have hsub : i + d + 1 - i = d + 1 := by omega
    have hsub' : i + d + 1 - (i + 1) = d := by omega
    have hle : i ≤ i + d + 1 := by omega
    have hle' : i + 1 ≤ i + d + 1 := by omega
    simp [bindFrom, hsub, hsub', hle, hle', Function.update_of_ne (Nat.ne_of_gt hgt)]

/-- Copying arguments into their slots gives the parameters their values. -/
theorem effects_storeSlots (hf : f.Separate) {ps : List Variable} {rs : List Reg} {vs : List Int64}
    {i : Nat} (hregs : (rs.take vs.length).map m.regs = vs.map Int64.toBitVec)
    (hlen : ps.length = vs.length) (hfind : ∀ j < ps.length, f.find? (i + j) = ps[j]?)
    (hm : Ready f base env sp m) :
    ∃ m', Instr.effects m ((ps.zip rs).map fun p => .storeSlot p.2 p.1.offset) = some m' ∧
      Ready f base (bindFrom i vs env) sp m' ∧ (∀ a, base ≤ a → m'.memory a = m.memory a) ∧
      m'.world = m.world := by
  induction ps generalizing rs vs i env m with
  | nil =>
    obtain rfl := List.eq_nil_of_length_eq_zero hlen.symm
    have henv : bindFrom i [] env = env := by
      funext id
      simp [bindFrom]
    rw [henv]
    exact ⟨m, rfl, hm, fun _ _ => rfl, rfl⟩
  | cons p ps ih =>
    obtain ⟨v, vs, rfl⟩ := List.exists_cons_of_length_eq_add_one hlen.symm
    obtain ⟨r, rs, rfl⟩ : ∃ r rs', rs = r :: rs' := by
      cases rs with
      | nil => exact absurd hregs (by simp)
      | cons r rs => exact ⟨r, rs, rfl⟩
    rw [List.length_cons, List.take_succ_cons, List.map_cons, List.map_cons, List.cons.injEq]
      at hregs
    have hp : f.find? i = some p := by simpa using hfind 0 (by simp)
    have hi : i < f.vars.length :=
      (List.getElem?_eq_some_iff.mp ((f.find?_eq_getElem? i).symm.trans hp)).1
    have hoffset : f.offset i = p.offset := by simp [Function.offset, hp]
    obtain ⟨-, hhigh, hslot⟩ := hm.slot_bounds hf.toLaid hi
    have hbase := hm.base_lt
    have he : (Instr.storeSlot r p.offset).effect m =
        some (m.write (f.slot base i) v.toBitVec) := by
      rw [Instr.effect, ← hoffset, hm.slot_eq hf.toLaid hi, Machine.store_ofNat (by omega) hslot,
        hregs.1]
    have hnext : ∀ j < ps.length, f.find? (i + 1 + j) = ps[j]? := by
      intro j hj
      have hj' := hfind (j + 1) (by simpa using hj)
      rwa [List.getElem?_cons_succ, ← Nat.add_assoc, Nat.add_right_comm] at hj'
    obtain ⟨m', he', hm', hmem, hworld⟩ := ih (m := m.write (f.slot base i) v.toBitVec) hregs.2
      (by simpa using hlen) hnext (hm.assign hf hi v)
    rw [bindFrom_cons] at hm'
    refine ⟨m', ?_, hm', fun a ha => ?_, hworld⟩
    · rw [List.zip_cons_cons, List.map_cons, Instr.effects_cons, he, Option.bind_some, he']
    · have hne : a ≠ f.slot base i := by omega
      rw [hmem a ha]
      simp [Function.update_of_ne hne]

/-- The words on the stack that a function has to restore. -/
def savedWords (m : Machine σ) : List Int64 :=
  savedInOrder.map fun r => .ofBitVec (m.regs r)

/-- **What is so when the body of a function starts**, which was called in the state `m`: the
variables have their first values, and the saved registers lie above the frame. -/
structure Started (f : Function) (args : List Int64) (base sp : Nat) (m m' : Machine σ) : Prop where
  ready : Ready f base (Function.bind args (residue f m)) sp m'
  world : m'.world = m.world
  saved : OnStack (m'.set .rsp (BitVec.ofNat 64 base)) (base + 48) (savedWords m)
  memory : ∀ a, base + 48 ≤ a → m'.memory a = m.memory a

/-- The code that sets up the frame sets it up. -/
theorem effects_setup (hf : f.Separate) (hframe : f.Aligned) {args : List Int64}
    (hargs : args.length = f.params.length) (hm : Called f args m)
    (hbase : base + 48 = (m.regs .rsp).toNat) :
    ∃ m', Instr.effects m f.setup = some m' ∧
      Started f args base (base - f.frameSize.toNat) m m' := by
  have hneed := hm.room
  have hdvd := hm.aligned
  have hlt : (m.regs .rsp).toNat < 2 ^ 64 := (m.regs .rsp).isLt
  have hnonneg := hframe.nonneg
  obtain ⟨size, hsize⟩ := hframe.dvd
  unfold Function.stackNeed at hneed
  have hsp : m.regs .rsp = BitVec.ofNat 64 (base + 48) := by
    rw [hbase, BitVec.ofNat_toNat, BitVec.setWidth_eq]
  -- the registers are saved
  obtain ⟨m₁, he₁, hstack, hregs₁, hmem₁, hworld₁⟩ := effects_pushes hsp
    (by decide : .rsp ∉ savedInOrder) (by simp [savedInOrder, savedRegs]) (by omega) (by omega)
  have hsp₁ : m₁.regs .rsp = BitVec.ofNat 64 base := by
    simpa [savedInOrder, savedRegs] using hstack.pointer
  -- the frame is reserved
  obtain ⟨m₂, he₂, hsp₂, hregs₂, hmem₂, hworld₂⟩ := effects_reserve hnonneg
    (by simpa using hsp₁ : (m₁.set .rbp (m₁.regs .rsp)).regs .rsp = BitVec.ofNat 64 base)
    (by omega) (by omega)
  have hready : Ready f base (residue f m) (base - f.frameSize.toNat) m₂ := by
    refine ⟨⟨?_, fun id hid => ?_⟩, by omega, by omega, hsp₂, by omega, by omega, by omega⟩
    · rw [hregs₂ .rbp (by decide)]
      simpa using hsp₁
    · obtain ⟨-, hlow, hhigh⟩ := hf.slot id hid
      have hbelow : f.slot base id < base := by
        unfold Function.slot
        omega
      have hbase' : (m.regs .rsp).toNat - 48 = base := by omega
      rw [hmem₂, Machine.set_memory, hmem₁ _ (by simp [savedInOrder, savedRegs, hbelow]), residue,
        hbase', Int64.toBitVec_ofBitVec]
  -- the arguments are copied
  have hkept : ∀ r ∈ passedRegs, r ≠ .rsp ∧ r ≠ .rbp := by decide
  have hregs : (passedRegs.take args.length).map m₂.regs = args.map Int64.toBitVec := by
    rw [← hm.arguments]
    refine List.map_congr_left fun r hr => ?_
    obtain ⟨hne, hne'⟩ := hkept r (List.mem_of_mem_take hr)
    rw [hregs₂ r hne, Machine.set_regs, Function.update_of_ne hne', hregs₁ r hne]
  have hfind : ∀ j < f.params.length, f.find? (0 + j) = f.params[j]? := by
    intro j hj
    rw [Nat.zero_add, Function.find?_eq_getElem?, Function.vars, List.getElem?_append_left hj]
  obtain ⟨m₃, he₃, hready₃, hmem₃, hworld₃⟩ :=
    effects_storeSlots hf hregs hargs.symm hfind hready
  have hbind : bindFrom 0 args (residue f m) = Function.bind args (residue f m) := by
    funext id
    simp [bindFrom, Function.bind]
  rw [hbind] at hready₃
  have hmem : ∀ a, base ≤ a → m₃.memory a = m₁.memory a := fun a ha => by
    rw [hmem₃ a ha, hmem₂, Machine.set_memory]
  refine ⟨m₃, ?_, hready₃, ?_, ?_, fun a ha => ?_⟩
  · have hsplit : f.setup = savedInOrder.map .push ++ ([.move .rsp .rbp] ++
        ((if 0 < f.frameSize then [.subWord f.frameSize .rsp] else []) ++
          (f.params.zip passedRegs).map fun p => .storeSlot p.2 p.1.offset)) := by
      simp [Function.setup, savedInOrder, emitted_convention.1]
    rw [hsplit, Instr.effects_append, he₁, Option.bind_some, Instr.effects_append,
      Instr.effects_singleton, Instr.effect, Option.bind_some, Instr.effects_append, he₂,
      Option.bind_some, he₃]
  · rw [hworld₃, hworld₂, Machine.set_world, hworld₁]
  · have hsix : (savedWords m).length = 6 := rfl
    refine OnStack.congr (show OnStack m₁ (base + 48) (savedWords m) from hstack)
      (by omega) (fun a ha => hmem a (by omega)) ?_
    rw [hsix]
    simp
  · rw [hmem a (by omega), hmem₁ a (Or.inr ha)]

/-! ## Giving up the frame -/

/-- The code that gives up the frame restores the registers and goes back to the caller. -/
theorem run_teardown {n : Nat} (hP : Backward callee code P) {args : List Int64} {pc : Nat}
    {m₀ : Machine σ} {v : Int64} (hcode : Stands code pc (instrLines Function.teardown))
    (hbase : base + 48 = (m.regs .rsp).toNat) (hdvd : 8 ∣ base)
    (hstart : Started f args base sp m m₀) (hkeeps : Keeps base m₀ m')
    (hvalue : m'.regs .rax = v.toBitVec)
    (h : ∀ m₁, Returned m v m'.world m₁ → P n (.left (m.memory (m.regs .rsp).toNat) m₁)) :
    P n (.at pc m') := by
  have hlt : (m.regs .rsp).toNat < 2 ^ 64 := (m.regs .rsp).isLt
  have hsix : (savedWords m).length = 6 := rfl
  have hrbp : m'.regs .rbp = BitVec.ofNat 64 base :=
    (hkeeps.regs .rbp (by decide)).trans hstart.ready.frame.pointer
  have hstack : OnStack (m'.set .rsp (m'.regs .rbp)) (base + 48) (savedWords m) := by
    refine hstart.saved.congr (by omega) (fun a ha => hkeeps.memory a (by omega)) ?_
    rw [hsix]
    simpa using hrbp
  obtain ⟨m₁, he₁, hregs₁, hsp₁, hother₁, hmem₁, hworld₁⟩ := effects_pops hstack
    (show savedInOrder.length = _ from rfl) (by decide) (by decide) (by omega) (by omega)
    (by omega)
  have hmem : ∀ a, base + 48 ≤ a → m₁.memory a = m.memory a := fun a ha => by
    rw [hmem₁, Machine.set_memory, hkeeps.memory a (by omega), hstart.memory a ha]
  have hrestored : ∀ r ∈ savedInOrder, m₁.regs r = m.regs r := by
    have hwords : (savedWords m).map Int64.toBitVec = savedInOrder.map m.regs := by
      rw [savedWords, List.map_map]
      exact List.map_congr_left fun r _ => Int64.toBitVec_ofBitVec _
    exact List.map_inj_left.mp (hregs₁.trans hwords)
  have hsp : m.regs .rsp = BitVec.ofNat 64 (base + 48) := by
    rw [hbase, BitVec.ofNat_toNat, BitVec.setWidth_eq]
  have hreturn : m₁.load (m₁.regs .rsp) = some (m.memory (m.regs .rsp).toNat) := by
    rw [hsp₁, Machine.load_ofNat (by omega) (by omega), hmem _ le_rfl, hbase]
  have hsplit : Function.teardown =
      [.move .rbp .rsp] ++ (savedInOrder.reverse.map .pop ++ [.ret]) := rfl
  rw [hsplit] at hcode
  have hrest := hcode.instrs_right
  refine hP.effect hcode.head rfl (hP.effects hrest.instrs_left he₁ ?_)
  refine hP.ret hrest.instrs_right.head hreturn (h _ ⟨?_, ?_, ?_, fun r hr => ?_, ?_⟩)
  · rw [Machine.set_regs, Function.update_of_ne (by decide), hother₁ .rax (by decide) (by decide),
      Machine.set_regs, Function.update_of_ne (by decide), hvalue]
  · rw [Machine.set_world, hworld₁, Machine.set_world]
  · rw [Machine.set_regs, Function.update_self, hsp₁, hsp]
  · have hmem' : r ∈ savedInOrder := by
      rcases List.mem_cons.mp hr with rfl | hr
      · decide
      · exact List.mem_append_left _ hr
    have hne : r ≠ .rsp := by
      rintro rfl
      exact absurd hr (by decide)
    rw [Machine.set_regs, Function.update_of_ne hne, hrestored r hmem']
  · intro a ha
    exact hmem a (by omega)

/-! ## Functions -/

/-- Only the last line counts. -/
theorem Settled.of_ne_nil {before ls : List Line} (h : Settled ls) (hls : ls ≠ []) :
    Settled (before ++ ls) := by
  intro l hl
  rw [List.getLast?_append_of_ne_nil _ hls] at hl
  exact h l hl

/-- Lines that load no argument and are no padding are settled. -/
theorem settled_of_forall {ls : List Line}
    (h : ∀ l ∈ ls, l ≠ padLine ∧ ∀ r ∈ passedRegs, l ≠ .instr (.pop r)) : Settled ls :=
  fun l hl => h l (List.mem_of_mem_getLast? hl)

/-- The code in front of the body does not end in loading an argument or in padding. -/
theorem settled_front (hframe : f.Aligned) : Settled f.front := by
  have hreserve : f.frameSize ≠ 8 := by
    obtain ⟨size, hsize⟩ := hframe.dvd
    omega
  rw [Function.front, Function.setup, instrLines, List.map_append, List.map_append,
    ← List.cons_append, ← List.cons_append]
  refine ((settled_of_getLast? (l := .instr (.move .rsp .rbp)) (by simp [savedRegs])
    (by decide)).append (settled_of_forall fun l hl => ?_)).append
      (settled_of_forall fun l hl => ?_)
  · by_cases hsize : 0 < f.frameSize
    · obtain rfl : l = .instr (.subWord f.frameSize .rsp) := by simpa [hsize] using hl
      simp [hreserve]
    · simp [hsize] at hl
  · rw [List.map_map, List.mem_map] at hl
    obtain ⟨p, -, rfl⟩ := hl
    simp

/-- **The code of a function does what its body does.** -/
theorem run_function {n k rounds : Nat} {before after : List Line} (hP : Backward callee code P)
    (hplaced : Placed f n code before after) (hf : f.Separate) (hframe : f.Aligned)
    (hfault : Stmt.faults? f f.body = none) {args : List Int64}
    (hargs : args.length = f.params.length) (hm : Called f args m) (hk : k ≤ rounds)
    (h : Outcome (fun v s => ∀ m', Returned m v s.world m' →
          P k (.left (m.memory (m.regs .rsp).toNat) m'))
        (Broken P k) (f.run callee rounds ⟨Function.bind args (residue f m), m.world⟩)) :
    P k (.at before.length m) := by
  have hneed := hm.room
  have haligned := hm.aligned
  unfold Function.stackNeed at hneed
  obtain ⟨base, hbase⟩ : ∃ base, base + 48 = (m.regs .rsp).toNat :=
    ⟨(m.regs .rsp).toNat - 48, by omega⟩
  have hcode : Stands code before.length (f.front ++ (f.middle n ++ f.back)) :=
    ⟨before, after, by rw [hplaced.split, List.append_assoc], rfl⟩
  have hexit := hplaced.resolve_exit
  have hset : Settled (code.take (before.length + f.front.length)) := by
    rw [hcode.left.take]
    exact (settled_front hframe).of_ne_nil (List.cons_ne_nil _ _)
  obtain ⟨m₀, he, hstart⟩ := effects_setup hf hframe hargs hm hbase
  have hback := hcode.right.right
  -- every way out of the body leads to the end of the function
  have hend : ∀ v (s : Store σ) m₁, Inside f base (base - f.frameSize.toNat) m₀ s m₁ →
      m₁.regs .rax = v.toBitVec → (∀ m', Returned m v s.world m' →
        P k (.left (m.memory (m.regs .rsp).toNat) m')) →
      P k (.at (before.length + f.front.length + (f.middle n).length) m₁) := by
    intro v s m₁ hin hax hret
    refine hP.less (hP.skip hback.head (by simp) (run_teardown hP hback.tail hbase (by omega) hstart
      hin.keeps hax fun m₂ hm₂ => ?_))
    rw [hin.world] at hm₂
    exact hret m₂ hm₂
  have hbody : P k (.at (before.length + f.front.length) m₀) := by
    have hmiddle := hcode.right.left
    rw [Function.middle] at hmiddle
    rw [Function.run, outcome_bind] at h
    refine runs_stmts hP hf hplaced.nodup hexit f.body hmiddle.left hset hfault (by omega) hk rfl
      _ m₀ ⟨hstart.ready, hstart.world, .refl base m₀⟩ (h.imp (fun completion s h => ?_)
        fun _ _ h => h)
    cases completion with
    | returned v => exact fun m₁ hin hax => hend v s m₁ hin hax h
    | normal =>
      intro m₁ hin
      have hin' : Inside f base (base - f.frameSize.toNat) m₀ s
          (m₁.set .rax (Int64.toBitVec 0)) :=
        hin.of_keeps hf (.set (by decide) _) hin.ready.pointer hin.world
      refine hP.effect hmiddle.right.head rfl ?_
      have hgoal := hend 0 s _ hin' (by simp) h
      rwa [Function.middle, List.length_append, ← Nat.add_assoc] at hgoal
  have hsetup : P k (.at (before.length + 1) m) := by
    refine hP.effects hcode.left.tail he ?_
    have hlen : before.length + 1 + f.setup.length = before.length + f.front.length := by
      rw [Function.front, List.length_cons, List.length_map]
      omega
    rwa [hlen]
  exact hP.less (hP.skip hcode.left.head (by simp) hsetup)

end Assembly
end MicroGo
