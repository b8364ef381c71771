import MicroGo.Proofs.Assembly.Paths

/-!
# Padding

Where a call needs padding, eight bytes are taken before it and given back behind it.  `Padded`
says that this is all that happens in a piece of code: the lines that take or give back eight bytes
occur in fours, around the call that they are for.  A frame is a multiple of sixteen bytes, so the
line that reserves it is never mistaken for padding.
-/

namespace MicroGo
namespace Assembly

/-- The line that makes room for padding. -/
abbrev padLine : Line :=
  .instr (.subWord 8 .rsp)

/-- The line that gives the room for padding back. -/
abbrev unpadLine : Line :=
  .instr (.addWord 8 .rsp)

/-- Code in which padding stands around calls only. -/
inductive Padded : List Line → Prop where
  | nil : Padded []
  | line {l : Line} {ls : List Line} : l ≠ padLine → l ≠ unpadLine → Padded ls → Padded (l :: ls)
  | call {callee : String} {ls : List Line} : Padded ls →
      Padded (padLine :: .instr (.moveWord 0 .rax) :: .instr (.call callee) :: unpadLine :: ls)

namespace Padded

variable {a b ls : List Line}

theorem append (ha : Padded a) (hb : Padded b) : Padded (a ++ b) := by
  induction ha with
  | nil => exact hb
  | line hpad hunpad _ ih => exact .line hpad hunpad ih
  | call _ ih => exact .call ih

theorem of_plain (h : ∀ l ∈ ls, l ≠ padLine ∧ l ≠ unpadLine) : Padded ls := by
  induction ls with
  | nil => exact .nil
  | cons l ls ih =>
    obtain ⟨hpad, hunpad⟩ := h l (List.mem_cons_self ..)
    exact .line hpad hunpad (ih fun m hm => h m (List.mem_cons_of_mem l hm))

/-- Behind the room for padding come the call and the line that gives the room back. -/
theorem getElem?_of_pad (h : Padded ls) : ∀ {i : Nat}, ls[i]? = some padLine →
    ∃ callee, ls[i + 1]? = some (.instr (.moveWord 0 .rax)) ∧
      ls[i + 2]? = some (.instr (.call callee)) ∧ ls[i + 3]? = some unpadLine := by
  induction h with
  | nil => exact fun hi => absurd hi (by simp)
  | @line l ls hpad _ _ ih =>
    intro i hi
    cases i with
    | zero => exact absurd (Option.some.inj hi) hpad
    | succ i =>
      obtain ⟨callee, h₁, h₂, h₃⟩ := ih (i := i) (by simpa using hi)
      exact ⟨callee, by simpa using h₁, by simpa using h₂, by simpa using h₃⟩
  | @call callee ls _ ih =>
    intro i hi
    match i with
    | 0 => exact ⟨callee, rfl, rfl, rfl⟩
    | 1 | 2 | 3 => exact absurd hi (by simp)
    | i + 4 =>
      obtain ⟨callee', h₁, h₂, h₃⟩ := ih (i := i) (by simpa using hi)
      exact ⟨callee', by simpa using h₁, by simpa using h₂, by simpa using h₃⟩

/-- Before the line that gives the room back stand the call and the line that took the room. -/
theorem getElem?_of_unpad (h : Padded ls) : ∀ {i : Nat}, ls[i]? = some unpadLine →
    ∃ j callee, i = j + 3 ∧ ls[j]? = some padLine ∧
      ls[j + 2]? = some (.instr (.call callee)) := by
  induction h with
  | nil => exact fun hi => absurd hi (by simp)
  | @line l ls _ hunpad _ ih =>
    intro i hi
    cases i with
    | zero => exact absurd (Option.some.inj hi) hunpad
    | succ i =>
      obtain ⟨j, callee, rfl, h₁, h₂⟩ := ih (i := i) (by simpa using hi)
      exact ⟨j + 1, callee, by omega, by simpa using h₁, by simpa using h₂⟩
  | @call callee ls _ ih =>
    intro i hi
    match i with
    | 0 | 1 | 2 => exact absurd hi (by simp)
    | 3 => exact ⟨0, callee, rfl, rfl, rfl⟩
    | i + 4 =>
      obtain ⟨j, callee', rfl, h₁, h₂⟩ := ih (i := i) (by simpa using hi)
      exact ⟨j + 4, callee', by omega, by simpa using h₁, by simpa using h₂⟩

end Padded

/-! ## The code of a program -/

theorem padded_callCode (callee : String) (d : Nat) :
    Padded (instrLines (callCode callee d)) := by
  unfold callCode
  by_cases hpad : Emit.needsPadding d
  · simp only [hpad, if_true]
    exact .call .nil
  · refine .of_plain ?_
    simp [hpad]

theorem padded_operation (op : BinaryOp) : Padded (instrLines (operation op)) := by
  refine .of_plain ?_
  cases op <;> simp [operation, operation.comparison]

theorem padded_pops (rs : List Reg) : Padded (instrLines (rs.map .pop)) := by
  refine .of_plain ?_
  simp

mutual

theorem padded_expr (f : Function) : ∀ (e : Expr) (d : Nat), Padded (instrLines (e.code f d))
  | .num value, d => .of_plain (by simp [Expr.code])
  | .var id, d => .of_plain (by simp [Expr.code])
  | .binary op lhs rhs, d => by
    have hpops : Padded (instrLines [.pop .rdi, .pop .rax]) := padded_pops [.rdi, .rax]
    have hpush : Padded (instrLines [.push .rax]) := .of_plain (by simp)
    have h := ((padded_expr f lhs d).append (padded_expr f rhs (d + 1))).append
      ((hpops.append (padded_operation op)).append hpush)
    simpa [Expr.code] using h
  | .call callee args, d => by
    have hpush : Padded (instrLines [.push .rax]) := .of_plain (by simp)
    have h := ((padded_exprs f args d).append
      (padded_pops (argumentRegs.take args.length).reverse)).append
        ((padded_callCode callee d).append hpush)
    simpa [Expr.code, loadArguments] using h

theorem padded_exprs (f : Function) : ∀ (es : List Expr) (d : Nat),
    Padded (instrLines (Expr.codes f d es))
  | [], d => .nil
  | e :: es, d => by
    have h := (padded_expr f e d).append (padded_exprs f es (d + 1))
    simpa [Expr.codes] using h

end

theorem padded_jumpUnless (f : Function) (cond : Expr) (target : Label) :
    Padded (instrLines (jumpUnlessCode f cond target)) := by
  have htest : Padded (instrLines [.pop .rax, .compareWord 0 .rax, .jumpEqual target]) :=
    .of_plain (by simp)
  simpa [jumpUnlessCode] using (padded_expr f cond 0).append htest

theorem padded_leaveUnless (f : Function) (cond : Option Expr) (target : Label) :
    Padded (instrLines (leaveUnlessCode f cond target)) := by
  cases cond with
  | none => exact .nil
  | some cond => exact padded_jumpUnless f cond target

mutual

theorem padded_stmt (f : Function) : ∀ (s : Stmt) (n : Nat), Padded (s.code f n)
  | .expr value, n => by
    have h := (padded_expr f value 0).append (padded_pops [.rax])
    simpa [Stmt.code] using h
  | .assign target value, n => by
    have haddress : Padded (instrLines [.slotAddress (f.offset target) .rax, .push .rax]) :=
      .of_plain (by simp)
    have hstore : Padded (instrLines [.pop .rdi, .pop .rax, .store .rdi .rax]) :=
      .of_plain (by simp)
    simpa [Stmt.code] using haddress.append ((padded_expr f value 1).append hstore)
  | .ret value, n => by
    have hjump : Padded (instrLines [.pop .rax, .jump (.exit f.name)]) := .of_plain (by simp)
    simpa [Stmt.code] using (padded_expr f value 0).append hjump
  | .block body, n => by
    rw [Stmt.code]
    exact padded_stmts f body n
  | .branch init cond body other, n => by
    rw [Stmt.code]
    exact (padded_optStmt f init _).append ((padded_jumpUnless f cond _).append
      ((padded_stmts f body _).append ((Padded.of_plain (by simp)).append
        ((padded_optStmt f other _).append (.of_plain (by simp))))))
  | .loop init cond post body, n => by
    rw [Stmt.code]
    exact (padded_optStmt f init _).append ((Padded.of_plain (by simp)).append
      ((padded_leaveUnless f cond _).append ((padded_stmts f body _).append
        ((padded_optStmt f post _).append (.of_plain (by simp))))))

theorem padded_stmts (f : Function) : ∀ (ss : List Stmt) (n : Nat), Padded (Stmt.codes f n ss)
  | [], n => .nil
  | s :: ss, n => by
    rw [Stmt.codes]
    exact (padded_stmt f s n).append (padded_stmts f ss _)

theorem padded_optStmt (f : Function) : ∀ (s : Option Stmt) (n : Nat), Padded (Stmt.optCode f n s)
  | none, n => .nil
  | some s, n => by
    rw [Stmt.optCode]
    exact padded_stmt f s n

end

theorem padded_function {f : Function} (hf : f.Aligned) (n : Nat) : Padded (f.code n) := by
  have hsize : f.frameSize ≠ 8 := by
    intro h
    have hdvd := hf.dvd
    omega
  have hsetup : Padded (instrLines f.setup) := by
    have hparams : Padded (instrLines
        ((f.params.zip argumentRegs).map fun p => .storeSlot p.2 p.1.offset)) := by
      refine .of_plain fun l hl => ?_
      obtain ⟨i, hi, rfl⟩ := List.mem_map.mp hl
      obtain ⟨p, -, rfl⟩ := List.mem_map.mp hi
      exact ⟨by simp, by simp⟩
    rw [Function.setup, instrLines, List.map_append]
    refine Padded.append (.of_plain ?_) hparams
    split <;> simp [savedRegs, hsize]
  have hhead : Padded [.global f.name, .label (.entry f.name)] := .of_plain (by simp)
  have hend : Padded [.instr (.moveWord 0 .rax), .label (.exit f.name)] := .of_plain (by simp)
  have hteardown : Padded (instrLines Function.teardown) :=
    .of_plain (by simp [Function.teardown, savedRegs])
  exact (((hhead.append hsetup).append (padded_stmts f f.body n)).append hend).append hteardown

/-- **Padding stands around calls only**, in the code of every program whose frames are aligned. -/
theorem padded_code {p : Program} (hp : ∀ f ∈ p.functions, f.Aligned) : Padded p.code := by
  have hcodes : ∀ (fs : List Function) (n : Nat), (∀ f ∈ fs, f.Aligned) →
      Padded (Program.codes n fs) := by
    intro fs
    induction fs with
    | nil => exact fun _ _ => .nil
    | cons f fs ih =>
      intro n h
      exact (padded_function (h f (List.mem_cons_self ..)) n).append
        (ih _ fun g hg => h g (List.mem_cons_of_mem f hg))
  exact (Padded.of_plain (by simp)).append (hcodes p.functions 0 hp)

end Assembly
end MicroGo
