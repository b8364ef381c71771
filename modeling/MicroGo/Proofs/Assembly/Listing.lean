import Mathlib.Tactic.Common
import MicroGo.Assembly.Program

/-!
# The listing of a program

Emission is a run in a state: lines are pushed one by one, a depth goes up and down, numbers are
handed out, and any step may end in a fault.  Everything that is said later about the code of a
program is said about its *listing*: the same lines as a plain function of the tree, of the depth
of the operand stack at its start, and of the first free label number.  This file defines the
listing and proves that emission gives it.

## Which trees have code

A listing exists for every tree, and is the code only of a tree that has no fault.  The fault of a
tree is its first misfit node in the order of emission: a variable that the function lacks, or a
call with more arguments than there are registers.  `Yields` joins the two: an emission from a
given depth and label number either ends in the given fault, or appends the given lines.

The two bookkeeping faults of `Fault` are no fault of any tree.  That is not assumed: it is part of
what `yields_expr` and `yields_stmt` prove, since the faults they name are misfit nodes only.
-/

namespace MicroGo

open Assembly

/-! ## Misfit nodes -/

/-- The fault of a variable: its function does not have it. -/
def Function.fault? (f : Function) (id : VarId) : Option Fault :=
  if id < f.vars.length then none else some (.unknownVariable id f.name)

mutual

/-- The first misfit node of an expression. -/
def Expr.fault? (f : Function) : Expr → Option Fault
  | .num _ => none
  | .var id => f.fault? id
  | .binary _ lhs rhs => Expr.fault? f lhs <|> Expr.fault? f rhs
  | .call callee args =>
      if args.length ≤ argumentRegs.length then Expr.faults? f args
      else some (.tooManyArguments callee args.length)

/-- The first misfit node of expressions. -/
def Expr.faults? (f : Function) : List Expr → Option Fault
  | [] => none
  | e :: es => Expr.fault? f e <|> Expr.faults? f es

end

mutual

/-- The first misfit node of a statement. -/
def Stmt.fault? (f : Function) : Stmt → Option Fault
  | .expr value => value.fault? f
  | .assign target value => f.fault? target <|> value.fault? f
  | .ret value => value.fault? f
  | .block body => Stmt.faults? f body
  | .branch init cond body other =>
      Stmt.optFault? f init <|> cond.fault? f <|> Stmt.faults? f body <|> Stmt.optFault? f other
  | .loop init cond post body =>
      Stmt.optFault? f init <|> cond.bind (Expr.fault? f) <|> Stmt.faults? f body <|>
        Stmt.optFault? f post

/-- The first misfit node of statements. -/
def Stmt.faults? (f : Function) : List Stmt → Option Fault
  | [] => none
  | s :: ss => Stmt.fault? f s <|> Stmt.faults? f ss

/-- The first misfit node of a statement that may be missing. -/
def Stmt.optFault? (f : Function) : Option Stmt → Option Fault
  | none => none
  | some s => Stmt.fault? f s

end

/-- The first misfit node of a program. -/
def Program.fault? (p : Program) : Option Fault :=
  p.functions.findSome? fun f => Stmt.faults? f f.body

/-! ## Listings -/

/-- The distance of a variable below the frame pointer. -/
def Function.offset (f : Function) (id : VarId) : Int :=
  ((f.find? id).map Variable.offset).getD 0

namespace Assembly

/-- The call of a function when `depth` operands lie on the stack. -/
def callCode (callee : String) (depth : Nat) : List Instr :=
  (if Emit.needsPadding depth then [.subWord 8 .rsp] else []) ++
    [.moveWord 0 .rax, .call callee] ++
    (if Emit.needsPadding depth then [.addWord 8 .rsp] else [])

/-- The pops that bring `count` arguments into their registers. -/
def loadArguments (count : Nat) : List Instr :=
  (argumentRegs.take count).reverse.map .pop

end Assembly

mutual

/-- The code of an expression that starts with `depth` operands on the stack. -/
def Expr.code (f : Function) (depth : Nat) : Expr → List Instr
  | .num value => [.moveWord value .rax, .push .rax]
  | .var id => [.slotAddress (f.offset id) .rax, .push .rax, .pop .rax, .load .rax .rax, .push .rax]
  | .binary op lhs rhs =>
      Expr.code f depth lhs ++ Expr.code f (depth + 1) rhs ++
        ([.pop .rdi, .pop .rax] ++ operation op ++ [.push .rax])
  | .call callee args =>
      Expr.codes f depth args ++ loadArguments args.length ++
        (callCode callee depth ++ [.push .rax])

/-- The code of expressions, each of which finds one operand more on the stack. -/
def Expr.codes (f : Function) (depth : Nat) : List Expr → List Instr
  | [] => []
  | e :: es => Expr.code f depth e ++ Expr.codes f (depth + 1) es

end

mutual

/-- How many numbers for labels a statement takes. -/
def Stmt.labelCount : Stmt → Nat
  | .expr _ => 0
  | .assign _ _ => 0
  | .ret _ => 0
  | .block body => Stmt.labelCounts body
  | .branch init _ body other =>
      1 + Stmt.optLabelCount init + Stmt.labelCounts body + Stmt.optLabelCount other
  | .loop init _ post body =>
      1 + Stmt.optLabelCount init + Stmt.labelCounts body + Stmt.optLabelCount post

/-- How many numbers for labels statements take. -/
def Stmt.labelCounts : List Stmt → Nat
  | [] => 0
  | s :: ss => Stmt.labelCount s + Stmt.labelCounts ss

/-- How many numbers for labels a statement takes that may be missing. -/
def Stmt.optLabelCount : Option Stmt → Nat
  | none => 0
  | some s => Stmt.labelCount s

end

namespace Assembly

/-- Instructions as lines. -/
abbrev instrLines (is : List Instr) : List Line :=
  is.map .instr

/-- The code that evaluates a condition and jumps if it is zero. -/
def jumpUnlessCode (f : Function) (cond : Expr) (target : Label) : List Instr :=
  cond.code f 0 ++ [.pop .rax, .compareWord 0 .rax, .jumpEqual target]

/-- The code that leaves a loop unless its condition holds. -/
def leaveUnlessCode (f : Function) (cond : Option Expr) (target : Label) : List Instr :=
  match cond with
  | none => []
  | some cond => jumpUnlessCode f cond target

end Assembly

mutual

/-- The code of a statement whose first free label number is `n`. -/
def Stmt.code (f : Function) (n : Nat) : Stmt → List Line
  | .expr value => instrLines (value.code f 0 ++ [.pop .rax])
  | .assign target value =>
      instrLines ([.slotAddress (f.offset target) .rax, .push .rax] ++ value.code f 1 ++
        [.pop .rdi, .pop .rax, .store .rdi .rax])
  | .ret value => instrLines (value.code f 0 ++ [.pop .rax, .jump (.exit f.name)])
  | .block body => Stmt.codes f n body
  | .branch init cond body other =>
      Stmt.optCode f (n + 1) init ++
        (instrLines (jumpUnlessCode f cond (.otherwise n)) ++
        (Stmt.codes f (n + 1 + Stmt.optLabelCount init) body ++
        ([.instr (.jump (.done n)), .label (.otherwise n)] ++
        (Stmt.optCode f (n + 1 + Stmt.optLabelCount init + Stmt.labelCounts body) other ++
        [.label (.done n)]))))
  | .loop init cond post body =>
      Stmt.optCode f (n + 1) init ++
        ([.label (.begin n)] ++
        (instrLines (leaveUnlessCode f cond (.done n)) ++
        (Stmt.codes f (n + 1 + Stmt.optLabelCount init) body ++
        (Stmt.optCode f (n + 1 + Stmt.optLabelCount init + Stmt.labelCounts body) post ++
        [.instr (.jump (.begin n)), .label (.done n)]))))

/-- The code of statements. -/
def Stmt.codes (f : Function) (n : Nat) : List Stmt → List Line
  | [] => []
  | s :: ss => Stmt.code f n s ++ Stmt.codes f (n + Stmt.labelCount s) ss

/-- The code of a statement that may be missing. -/
def Stmt.optCode (f : Function) (n : Nat) : Option Stmt → List Line
  | none => []
  | some s => Stmt.code f n s

end

namespace Function

/-- The code that saves registers and sets up the frame. -/
def setup (f : Function) : List Instr :=
  savedRegs.map .push ++ [.push .rbp, .move .rsp .rbp] ++
    (if 0 < f.frameSize then [.subWord f.frameSize .rsp] else []) ++
    (f.params.zip argumentRegs).map fun p => .storeSlot p.2 p.1.offset

/-- The code that gives up the frame and restores registers. -/
def teardown : List Instr :=
  [.move .rbp .rsp, .pop .rbp] ++ savedRegs.reverse.map .pop ++ [.ret]

/-- The code of a function whose first free label number is `n`. -/
def code (f : Function) (n : Nat) : List Line :=
  [.global f.name, .label (.entry f.name)] ++ instrLines f.setup ++ Stmt.codes f n f.body ++
    [.instr (.moveWord 0 .rax), .label (.exit f.name)] ++ instrLines teardown

end Function

/-- The code of functions, the first free label number being `n`. -/
def Program.codes (n : Nat) : List Function → List Line
  | [] => []
  | f :: fs => f.code n ++ Program.codes (n + Stmt.labelCounts f.body) fs

/-- The code of a program. -/
def Program.code (p : Program) : List Line :=
  [.operandStyle, .codeSection] ++ Program.codes 0 p.functions

/-! ## Emission gives the listing -/

namespace Assembly

@[simp] theorem Emit.get_apply (s : Emission) : (get : Emit Emission) s = .ok s s := rfl

@[simp] theorem Emit.modify_apply (g : Emission → Emission) (s : Emission) :
    (modify g : Emit PUnit) s = .ok ⟨⟩ (g s) := rfl

/-- **What an emission comes to.**  From every state with the given depth and label number it ends
in `fault`, or, if there is none, appends `lines` and moves to a new depth and label number. -/
def Yields (p : Emit Unit) (depth label : Nat) (fault : Option Fault) (lines : List Line)
    (depth' label' : Nat) : Prop :=
  ∀ s : Emission, s.depth = depth → s.nextLabel = label →
    match fault with
    | none => ∃ log, p s = .ok () ⟨s.lines ++ lines.toArray, label', depth', log⟩
    | some e => ∃ t, p s = .error e t

namespace Yields

variable {p q : Emit Unit} {d d₁ d₂ n n₁ n₂ : Nat} {x y : Option Fault} {l m : List Line}

theorem congr {x' : Option Fault} {l' : List Line} (h : Yields p d n x l d₁ n₁) (hx : x = x')
    (hl : l = l') : Yields p d n x' l' d₁ n₁ := by
  rw [← hx, ← hl]
  exact h

/-- One emission after another: the first fault counts, and the lines follow each other. -/
theorem seq (hp : Yields p d n x l d₁ n₁) (hq : Yields q d₁ n₁ y m d₂ n₂) :
    Yields (do p; q) d n (x <|> y) (l ++ m) d₂ n₂ := by
  intro s hd hn
  have hs := hp s hd hn
  cases x with
  | some e =>
    obtain ⟨t, ht⟩ := hs
    exact ⟨t, by simp only [bind, EStateM.bind, ht]⟩
  | none =>
    obtain ⟨log, ht⟩ := hs
    have ht' := hq ⟨s.lines ++ l.toArray, n₁, d₁, log⟩ rfl rfl
    cases y with
    | some e =>
      obtain ⟨u, hu⟩ := ht'
      exact ⟨u, by simp only [bind, EStateM.bind, ht, hu]⟩
    | none =>
      obtain ⟨log', hu⟩ := ht'
      refine ⟨log', ?_⟩
      simp only [bind, EStateM.bind, ht, hu, Array.append_assoc, List.append_toArray]

/-- An emission after one that cannot fail. -/
theorem andThen (hp : Yields p d n none l d₁ n₁) (hq : Yields q d₁ n₁ y m d₂ n₂) :
    Yields (do p; q) d n y (l ++ m) d₂ n₂ :=
  hp.seq hq

protected theorem pure (d n : Nat) : Yields (pure ()) d n none [] d n := by
  intro s hd hn
  exact ⟨s.log, by subst hd hn; simp [Pure.pure, EStateM.pure]⟩

theorem line (l : Line) (d n : Nat) : Yields (Emit.line l) d n none [l] d n := by
  intro s hd hn
  refine ⟨s.log, ?_⟩
  subst hd hn
  simp [Emit.line]

theorem instr (i : Instr) (d n : Nat) : Yields (Emit.instr i) d n none [.instr i] d n :=
  line (.instr i) d n

theorem instrs (is : List Instr) (d n : Nat) :
    Yields (Emit.instrs is) d n none (instrLines is) d n := by
  induction is with
  | nil => exact .pure d n
  | cons i is ih => exact (instr i d n).andThen ih

theorem push (r : Reg) (d n : Nat) :
    Yields (Emit.push r) d n none [.instr (.push r)] (d + 1) n := by
  intro s hd hn
  refine ⟨s.log, ?_⟩
  subst hd hn
  simp [Emit.push, Emit.instr, Emit.line, bind, EStateM.bind]

/-- A pop takes an operand that is there. -/
theorem pop (r : Reg) (d n : Nat) :
    Yields (Emit.pop r) (d + 1) n none [.instr (.pop r)] d n := by
  intro s hd hn
  obtain ⟨log, h⟩ := instr (.pop r) d n { s with depth := d } rfl hn
  exact ⟨log, by simpa only [Emit.pop, hd] using h⟩

theorem pops (rs : List Reg) (d n : Nat) :
    Yields (rs.forM Emit.pop) (d + rs.length) n none (instrLines (rs.map .pop)) d n := by
  induction rs with
  | nil => exact .pure d n
  | cons r rs ih => exact (pop r (d + rs.length) n).andThen ih

theorem throw (e : Fault) (l : List Line) (d n d₁ n₁ : Nat) :
    Yields (MonadExcept.throw e) d n (some e) l d₁ n₁ :=
  fun s _ _ => ⟨s, rfl⟩

/-- Taking a number for labels: what follows starts with the next one free. -/
theorem newLabel {q : Nat → Emit Unit} (hq : Yields (q n) d (n + 1) y m d₂ n₂) :
    Yields (do let id ← Emit.newLabel; q id) d n y m d₂ n₂ := by
  intro s hd hn
  have h := hq { s with nextLabel := n + 1, log := s.log.push (.allocatedLabel n) } hd rfl
  simpa [Emit.newLabel, Emit.record, bind, EStateM.bind, hn, Pure.pure, EStateM.pure] using h

/-- An emission that keeps the depth passes the check for it. -/
theorem balanced (name : String) (hp : Yields p d n x l d n₁) :
    Yields (Emit.balanced name p) d n x l d n₁ := by
  intro s hd hn
  have hs := hp s hd hn
  cases x with
  | some e =>
    obtain ⟨t, ht⟩ := hs
    exact ⟨t, by simp [Emit.balanced, bind, EStateM.bind, ht]⟩
  | none =>
    obtain ⟨log, ht⟩ := hs
    exact ⟨log, by simp [Emit.balanced, bind, EStateM.bind, ht, hd, Pure.pure, EStateM.pure]⟩

end Yields

/-! ### Expressions -/

/-- The address of a variable: two instructions, or the fault that there is no such variable. -/
theorem yields_address (f : Function) (id : VarId) (d n : Nat) :
    Yields (Emit.address f id) d n (f.fault? id)
      (instrLines [.slotAddress (f.offset id) .rax, .push .rax]) (d + 1) n := by
  unfold Emit.address Function.fault? Function.offset
  rw [Function.find?_eq_getElem?]
  by_cases h : id < f.vars.length
  · rw [List.getElem?_eq_getElem h, if_pos h]
    exact (Yields.instr _ d n).andThen (Yields.push .rax d n)
  · rw [List.getElem?_eq_none (Nat.le_of_not_lt h), if_neg h]
    exact Yields.throw _ _ d n _ _

theorem yields_callAligned (callee : String) (d n : Nat) :
    Yields (Emit.callAligned callee) d n none (instrLines (callCode callee d)) d n := by
  have hcall := Yields.instrs [.moveWord 0 .rax, .call callee] d n
  have hsub := Yields.instr (.subWord 8 .rsp) d n
  have hadd := Yields.instr (.addWord 8 .rsp) d n
  intro s hd hn
  -- the padding is decided by the depth at the call, and the call keeps that depth
  by_cases hpad : Emit.needsPadding d
  · simpa [Emit.callAligned, callCode, hpad, hd, bind, EStateM.bind] using
      (hsub.andThen (hcall.andThen hadd)) s hd hn
  · simpa [Emit.callAligned, callCode, hpad, hd, bind, EStateM.bind] using
      (hcall.andThen (Yields.pure d n)) s hd hn

mutual

/-- **Emitting an expression.**  From any depth it appends the code of the expression and leaves
one operand more, unless the expression has a misfit node. -/
theorem yields_expr (f : Function) : ∀ (e : Expr) (d n : Nat),
    Yields (Emit.expr f e) d n (e.fault? f) (instrLines (e.code f d)) (d + 1) n
  | .num value, d, n => (Yields.instr _ d n).andThen (Yields.push .rax d n)
  | .var id, d, n => by
    have hload := (Yields.pop .rax d n).andThen
      ((Yields.instr (.load .rax .rax) d n).andThen (Yields.push .rax d n))
    rw [Emit.expr, Expr.fault?, Expr.code]
    refine ((yields_address f id d n).seq hload).congr ?_ rfl
    cases f.fault? id <;> rfl
  | .binary op lhs rhs, d, n => by
    have happly := (Yields.pop .rdi (d + 1) n).andThen ((Yields.pop .rax d n).andThen
      ((Yields.instrs (operation op) d n).andThen (Yields.push .rax d n)))
    have h := (yields_expr f lhs d n).seq ((yields_expr f rhs (d + 1) n).seq happly)
    rw [Emit.expr, Expr.fault?, Expr.code]
    refine h.congr ?_ (by simp)
    cases Expr.fault? f rhs <;> rfl
  | .call callee args, d, n => by
    rw [Emit.expr, Expr.fault?, Expr.code]
    by_cases hlen : args.length ≤ argumentRegs.length
    · rw [if_pos hlen, if_pos hlen]
      have hregs : (argumentRegs.take args.length).reverse.length = args.length := by
        rw [List.length_reverse, List.length_take_of_le hlen]
      have hpops := Yields.pops (argumentRegs.take args.length).reverse d n
      rw [hregs] at hpops
      have hcall := hpops.andThen ((yields_callAligned callee d n).andThen (Yields.push .rax d n))
      refine ((yields_exprs f args d n).seq hcall).congr ?_ (by simp [loadArguments])
      cases Expr.faults? f args <;> rfl
    · rw [if_neg hlen, if_neg hlen]
      exact Yields.throw _ _ d n _ _

/-- Emitting expressions leaves one operand for each. -/
theorem yields_exprs (f : Function) : ∀ (es : List Expr) (d n : Nat),
    Yields (Emit.exprs f es) d n (Expr.faults? f es) (instrLines (Expr.codes f d es))
      (d + es.length) n
  | [], d, n => Yields.pure d n
  | e :: es, d, n => by
    have h := (yields_expr f e d n).seq (yields_exprs f es (d + 1) n)
    rw [Emit.exprs, Expr.faults?, Expr.codes, List.length_cons, ← Nat.add_assoc, Nat.add_right_comm]
    exact h.congr rfl (by simp)

end

/-! ### Statements -/

theorem yields_jumpUnless (f : Function) (cond : Expr) (target : Label) (n : Nat) :
    Yields (Emit.jumpUnless f cond target) 0 n (cond.fault? f)
      (instrLines (jumpUnlessCode f cond target)) 0 n := by
  have htest := (Yields.pop .rax 0 n).andThen
    (Yields.instrs [.compareWord 0 .rax, .jumpEqual target] 0 n)
  refine ((yields_expr f cond 0 n).seq htest).congr ?_ (by simp [jumpUnlessCode])
  cases cond.fault? f <;> rfl

theorem yields_leaveUnless (f : Function) (cond : Option Expr) (target : Label) (n : Nat) :
    Yields (Emit.leaveUnless f cond target) 0 n (cond.bind (Expr.fault? f))
      (instrLines (leaveUnlessCode f cond target)) 0 n := by
  cases cond with
  | none => exact Yields.pure 0 n
  | some cond => exact yields_jumpUnless f cond target n

mutual

/-- **Emitting a statement.**  On an empty operand stack it appends the code of the statement and
leaves the operand stack empty, unless the statement has a misfit node. -/
theorem yields_stmt (f : Function) : ∀ (s : Stmt) (n : Nat),
    Yields (Emit.stmt f s) 0 n (s.fault? f) (s.code f n) 0 (n + s.labelCount)
  | .expr value, n => by
    rw [Emit.stmt, Stmt.fault?, Stmt.code]
    refine Yields.balanced _ (((yields_expr f value 0 n).seq (Yields.pop .rax 0 n)).congr ?_
      (by simp))
    cases value.fault? f <;> rfl
  | .assign target value, n => by
    have hstore := (Yields.pop .rdi 1 n).andThen ((Yields.pop .rax 0 n).andThen
      (Yields.instr (.store .rdi .rax) 0 n))
    have h := (yields_address f target 0 n).seq ((yields_expr f value 1 n).seq hstore)
    rw [Emit.stmt, Stmt.fault?, Stmt.code]
    refine Yields.balanced _ (h.congr ?_ (by simp))
    cases value.fault? f <;> rfl
  | .ret value, n => by
    have hjump := (Yields.pop .rax 0 n).andThen (Yields.instr (.jump (.exit f.name)) 0 n)
    rw [Emit.stmt, Stmt.fault?, Stmt.code]
    refine Yields.balanced _ (((yields_expr f value 0 n).seq hjump).congr ?_ (by simp))
    cases value.fault? f <;> rfl
  | .block body, n => by
    rw [Emit.stmt, Stmt.fault?, Stmt.code, Stmt.labelCount]
    exact Yields.balanced _ (yields_stmts f body n)
  | .branch init cond body other, n => by
    have hinit := yields_optStmt f init (n + 1)
    have hcond := yields_jumpUnless f cond (.otherwise n) (n + 1 + Stmt.optLabelCount init)
    have hbody := yields_stmts f body (n + 1 + Stmt.optLabelCount init)
    have hother := yields_optStmt f other
      (n + 1 + Stmt.optLabelCount init + Stmt.labelCounts body)
    have htail := (Yields.instr (.jump (.done n)) 0 _).andThen
      ((Yields.line (.label (.otherwise n)) 0 _).andThen
        (hother.seq (Yields.line (.label (.done n)) 0 _)))
    have h := hinit.seq (hcond.seq (hbody.seq htail))
    rw [Emit.stmt, Stmt.fault?, Stmt.code, Stmt.labelCount, ← Nat.add_assoc, ← Nat.add_assoc,
      ← Nat.add_assoc]
    refine Yields.balanced _ (Yields.newLabel (h.congr ?_ (by simp)))
    cases Stmt.optFault? f other <;> rfl
  | .loop init cond post body, n => by
    have hinit := yields_optStmt f init (n + 1)
    have hcond := yields_leaveUnless f cond (.done n) (n + 1 + Stmt.optLabelCount init)
    have hbody := yields_stmts f body (n + 1 + Stmt.optLabelCount init)
    have hpost := yields_optStmt f post
      (n + 1 + Stmt.optLabelCount init + Stmt.labelCounts body)
    have htail := hpost.seq ((Yields.instr (.jump (.begin n)) 0 _).andThen
      (Yields.line (.label (.done n)) 0 _))
    have h := hinit.seq ((Yields.line (.label (.begin n)) 0 _).andThen
      (hcond.seq (hbody.seq htail)))
    rw [Emit.stmt, Stmt.fault?, Stmt.code, Stmt.labelCount, ← Nat.add_assoc, ← Nat.add_assoc,
      ← Nat.add_assoc]
    refine Yields.balanced _ (Yields.newLabel (h.congr ?_ (by simp)))
    cases Stmt.optFault? f post <;> rfl

/-- Emitting statements appends their codes one after another. -/
theorem yields_stmts (f : Function) : ∀ (ss : List Stmt) (n : Nat),
    Yields (Emit.stmts f ss) 0 n (Stmt.faults? f ss) (Stmt.codes f n ss) 0
      (n + Stmt.labelCounts ss)
  | [], n => Yields.pure 0 n
  | s :: ss, n => by
    rw [Emit.stmts, Stmt.faults?, Stmt.codes, Stmt.labelCounts, ← Nat.add_assoc]
    exact (yields_stmt f s n).seq (yields_stmts f ss (n + s.labelCount))

/-- Emitting a statement that may be missing. -/
theorem yields_optStmt (f : Function) : ∀ (s : Option Stmt) (n : Nat),
    Yields (Emit.optStmt f s) 0 n (Stmt.optFault? f s) (Stmt.optCode f n s) 0
      (n + Stmt.optLabelCount s)
  | none, n => Yields.pure 0 n
  | some s, n => by
    rw [Emit.optStmt, Stmt.optFault?, Stmt.optCode, Stmt.optLabelCount]
    exact yields_stmt f s n

end

/-! ### Functions and programs -/

theorem yields_prologue (f : Function) (n : Nat) :
    Yields (do Emit.prologue f; Emit.parameters f) 0 n none
      ([.global f.name, .label (.entry f.name)] ++ instrLines f.setup) 0 n := by
  have hhead := (Yields.line (.global f.name) 0 n).andThen
    ((Yields.line (.label (.entry f.name)) 0 n).andThen
      ((Yields.instrs (savedRegs.map .push) 0 n).andThen
        (Yields.instrs [.push .rbp, .move .rsp .rbp] 0 n)))
  have hparams := Yields.instrs
    ((f.params.zip argumentRegs).map fun p => Instr.storeSlot p.2 p.1.offset) 0 n
  by_cases hsize : 0 < f.frameSize
  · have h := (hhead.andThen (Yields.instr (.subWord f.frameSize .rsp) 0 n)).andThen hparams
    simpa [Emit.prologue, Emit.parameters, Emit.label, hsize, Function.setup] using h
  · have h := (hhead.andThen (Yields.pure 0 n)).andThen hparams
    simpa [Emit.prologue, Emit.parameters, Emit.label, hsize, Function.setup] using h

theorem yields_epilogue (f : Function) (n : Nat) :
    Yields (Emit.epilogue f) 0 n none
      ([.instr (.moveWord 0 .rax), .label (.exit f.name)] ++ instrLines Function.teardown) 0 n := by
  have h := (Yields.instr (.moveWord 0 .rax) 0 n).andThen
    ((Yields.line (.label (.exit f.name)) 0 n).andThen
      ((Yields.instrs [.move .rbp .rsp, .pop .rbp] 0 n).andThen
        ((Yields.instrs (savedRegs.reverse.map .pop) 0 n).andThen (Yields.instr .ret 0 n))))
  exact h.congr rfl (by simp [Function.teardown])

/-- Whatever depth the function before left, a function starts with no operands. -/
theorem yields_function (f : Function) (d n : Nat) :
    Yields (Emit.function f) d n (Stmt.faults? f f.body) (f.code n) 0
      (n + Stmt.labelCounts f.body) := by
  have hbody := (yields_prologue f n).andThen
    ((yields_stmts f f.body n).seq (yields_epilogue f (n + Stmt.labelCounts f.body)))
  have h : Yields (do Emit.prologue f; Emit.parameters f; Emit.stmts f f.body; Emit.epilogue f)
      0 n (Stmt.faults? f f.body) (f.code n) 0 (n + Stmt.labelCounts f.body) := by
    have hfault : (Stmt.faults? f f.body <|> none) = Stmt.faults? f f.body := by
      cases Stmt.faults? f f.body <;> rfl
    rw [hfault] at hbody
    simpa [Function.code] using hbody
  intro s _ hn
  have hs := h { s with depth := 0, log := s.log.push (.generating f.name f.frameSize) } rfl hn
  simpa [Emit.function, Emit.record, bind, EStateM.bind] using hs

theorem yields_functions : ∀ (fs : List Function) (d n : Nat), ∃ d' n',
    Yields (fs.forM Emit.function) d n (fs.findSome? fun f => Stmt.faults? f f.body)
      (Program.codes n fs) d' n'
  | [], d, n => ⟨d, n, Yields.pure d n⟩
  | f :: fs, d, n => by
    obtain ⟨d', n', h⟩ := yields_functions fs 0 (n + Stmt.labelCounts f.body)
    refine ⟨d', n', ((yields_function f d n).seq h).congr ?_ rfl⟩
    rw [List.findSome?_cons]
    cases Stmt.faults? f f.body <;> rfl

theorem yields_program (p : Program) :
    ∃ d n, Yields (Emit.program p) 0 0 p.fault? p.code d n := by
  obtain ⟨d, n, h⟩ := yields_functions p.functions 0 0
  exact ⟨d, n, (Yields.line .operandStyle 0 0).andThen ((Yields.line .codeSection 0 0).andThen h)⟩

end Assembly

/-- **The assembly of a program is its listing.**  It fails exactly for a program with a misfit
node, and then with the fault of the first one. -/
theorem Program.assemble_result (p : Program) :
    p.assemble.result = match p.fault? with
      | none => .ok p.code
      | some e => .error e := by
  obtain ⟨d, n, h⟩ := yields_program p
  have hrun := h {} rfl rfl
  unfold Program.assemble
  cases hp : p.fault? with
  | none =>
    rw [hp] at hrun
    obtain ⟨log, hlog⟩ := hrun
    simp [bind, EStateM.bind, hlog, Pure.pure, EStateM.pure, Traced.ofResult]
  | some e =>
    rw [hp] at hrun
    obtain ⟨t, ht⟩ := hrun
    simp [bind, EStateM.bind, ht, Traced.ofResult]

end MicroGo
