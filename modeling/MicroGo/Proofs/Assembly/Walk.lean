import Mathlib.Data.Option.Basic
import MicroGo.Proofs.Assembly.Labels

/-!
# Walking through code from top to bottom

The emitter knows the depth of the operand stack along the *text*.  This file gives that knowledge
a form of its own: a `Spot` is a number of operands and whether the stack is padded for a call, and
`Line.pass` says what a line makes of it.  A line may also refuse: a pop needs an operand, a label
and a jump need an empty operand stack, a call needs an aligned stack, and padding is undone before
anything but a call happens.

`walk_codes` says that the code of every statement is walked through without a refusal, from an
empty operand stack to an empty operand stack.  Which way control takes does not matter here; that
is the subject of the next file.
-/

namespace MicroGo
namespace Assembly

/-! ## Spots -/

/-- A place in the text: the operands on the stack, and whether padding lies on top of them. -/
structure Spot where
  operands : Nat
  padded : Bool
deriving DecidableEq

namespace Spot

/-- No operands and no padding. -/
def clear : Spot :=
  ⟨0, false⟩

/-- The words on the stack below the frame. -/
def words (s : Spot) : Nat :=
  s.operands + if s.padded then 1 else 0

@[simp] theorem words_clear : clear.words = 0 := rfl

/-- The stack is aligned for a call: the words above the frame and those below it are even in
number. -/
def aligned (s : Spot) : Bool :=
  (1 + savedRegs.length + 1 + s.words) % 2 = 0

end Spot

/-- The register that an instruction sets. -/
def Instr.written? : Instr → Option Reg
  | .pop dst => some dst
  | .move _ dst => some dst
  | .moveWord _ dst => some dst
  | .load _ dst => some dst
  | .slotAddress _ dst => some dst
  | .add _ dst => some dst
  | .sub _ dst => some dst
  | .mul _ dst => some dst
  | .addWord _ dst => some dst
  | .subWord _ dst => some dst
  | .signExtend => some .rdx
  | .div _ => some .rax
  | .setByte _ => some .rax
  | .extendByte => some .rax
  | _ => none

/-- What an instruction of a body makes of a spot.  Nothing in a body sets the stack pointer but
pushes, pops and padding, and nothing in it returns. -/
def Instr.pass (s : Spot) : Instr → Option Spot
  | .push _ => if s.padded then none else some ⟨s.operands + 1, false⟩
  | .pop dst =>
      if s.padded ∨ s.operands = 0 ∨ dst = .rsp then none else some ⟨s.operands - 1, false⟩
  | .subWord value dst =>
      if value = 8 ∧ dst = .rsp ∧ ¬ s.padded then some ⟨s.operands, true⟩ else none
  | .addWord value dst =>
      if value = 8 ∧ dst = .rsp ∧ s.padded then some ⟨s.operands, false⟩ else none
  | .call _ => if s.aligned then some s else none
  | .jump _ => if s = .clear then some s else none
  | .jumpEqual _ => if s = .clear then some s else none
  | .ret => none
  | i => if i.written? = some .rsp then none else some s

/-- What a line of a body makes of a spot. -/
def Line.pass (s : Spot) : Line → Option Spot
  | .instr i => i.pass s
  | .label _ => if s = .clear then some s else none
  | _ => none

/-- What lines of a body make of a spot, from first to last. -/
def walk : List Line → Spot → Option Spot
  | [], s => some s
  | l :: ls, s => (l.pass s).bind (walk ls)

@[simp] theorem walk_nil (s : Spot) : walk [] s = some s := rfl

@[simp] theorem walk_cons (l : Line) (ls : List Line) (s : Spot) :
    walk (l :: ls) s = (l.pass s).bind (walk ls) := rfl

theorem walk_append (a b : List Line) (s : Spot) :
    walk (a ++ b) s = (walk a s).bind (walk b) := by
  induction a generalizing s with
  | nil => rfl
  | cons l a ih =>
    rw [List.cons_append, walk_cons, walk_cons, Option.bind_assoc]
    exact Option.bind_congr fun t _ => ih t

theorem walk_append_of_eq {a b : List Line} {s t : Spot} (h : walk a s = some t) :
    walk (a ++ b) s = walk b t := by
  rw [walk_append, h, Option.bind_some]

/-! ## Expressions -/

theorem walk_pops {rs : List Reg} (h : .rsp ∉ rs) (d : Nat) :
    walk (instrLines (rs.map .pop)) ⟨d + rs.length, false⟩ = some ⟨d, false⟩ := by
  induction rs with
  | nil => rfl
  | cons r rs ih =>
    rw [List.mem_cons, not_or] at h
    have hpop : Line.pass ⟨d + (rs.length + 1), false⟩ (.instr (.pop r)) =
        some ⟨d + rs.length, false⟩ := by
      simp [Line.pass, Instr.pass, Ne.symm h.1]
    rw [List.map_cons, instrLines, List.map_cons, walk_cons, List.length_cons, hpop,
      Option.bind_some]
    exact ih h.2

theorem walk_operation (op : BinaryOp) (d : Nat) :
    walk (instrLines (operation op)) ⟨d, false⟩ = some ⟨d, false⟩ := by
  cases op <;> rfl

/-- The padding makes up for an odd number of words, and is undone after the call. -/
theorem walk_callCode (callee : String) (d : Nat) :
    walk (instrLines (callCode callee d)) ⟨d, false⟩ = some ⟨d, false⟩ := by
  by_cases hpad : Emit.needsPadding d
  · have halign : Spot.aligned ⟨d, true⟩ = true := by
      unfold Emit.needsPadding at hpad
      simp only [decide_eq_true_eq] at hpad
      simp only [Spot.aligned, Spot.words, decide_eq_true_eq, if_true]
      omega
    simp [callCode, hpad, Line.pass, Instr.pass, Instr.written?, halign]
  · have halign : Spot.aligned ⟨d, false⟩ = true := by
      unfold Emit.needsPadding at hpad
      simp only [decide_eq_true_eq] at hpad
      simp only [Spot.aligned, Spot.words, decide_eq_true_eq, Bool.false_eq_true, if_false]
      omega
    simp [callCode, hpad, Line.pass, Instr.pass, Instr.written?, halign]

mutual

/-- The code of an expression adds one operand, at every depth. -/
theorem walk_expr {f : Function} : ∀ {e : Expr}, e.fault? f = none → ∀ d,
    walk (instrLines (e.code f d)) ⟨d, false⟩ = some ⟨d + 1, false⟩
  | .num value, _, d => rfl
  | .var id, _, d => rfl
  | .binary op lhs rhs, h, d => by
    rw [Expr.fault?, Option.orElse_eq_none] at h
    have hlhs := walk_expr h.1 d
    have hrhs := walk_expr h.2 (d + 1)
    have hpop : walk (instrLines [.pop .rdi, .pop .rax]) ⟨d + 1 + 1, false⟩ =
        some ⟨d, false⟩ := rfl
    rw [Expr.code, instrLines, List.map_append, List.map_append, List.map_append, List.map_append,
      List.append_assoc, walk_append_of_eq hlhs, walk_append_of_eq hrhs, List.append_assoc,
      walk_append_of_eq hpop, walk_append_of_eq (walk_operation op d)]
    rfl
  | .call callee args, h, d => by
    rw [Expr.fault?] at h
    by_cases hlen : args.length ≤ argumentRegs.length
    · rw [if_pos hlen] at h
      have hargs := walk_exprs h d
      have hrsp : .rsp ∉ (argumentRegs.take args.length).reverse := fun hmem =>
        absurd (List.mem_of_mem_take (List.mem_reverse.mp hmem)) (by decide)
      have hload := walk_pops hrsp d
      rw [List.length_reverse, List.length_take_of_le hlen] at hload
      rw [Expr.code, instrLines, List.map_append, List.map_append, List.map_append,
        List.append_assoc, walk_append_of_eq hargs, loadArguments, walk_append_of_eq hload,
        walk_append_of_eq (walk_callCode callee d)]
      rfl
    · rw [if_neg hlen] at h
      exact absurd h (by simp)

/-- The code of expressions adds one operand for each. -/
theorem walk_exprs {f : Function} : ∀ {es : List Expr}, Expr.faults? f es = none → ∀ d,
    walk (instrLines (Expr.codes f d es)) ⟨d, false⟩ = some ⟨d + es.length, false⟩
  | [], _, d => rfl
  | e :: es, h, d => by
    rw [Expr.faults?, Option.orElse_eq_none] at h
    rw [Expr.codes, instrLines, List.map_append, walk_append_of_eq (walk_expr h.1 d),
      List.length_cons, Nat.add_comm es.length 1, ← Nat.add_assoc]
    exact walk_exprs h.2 (d + 1)

end

/-! ## Statements -/

theorem walk_jumpUnless {f : Function} {cond : Expr} (h : cond.fault? f = none) (target : Label) :
    walk (instrLines (jumpUnlessCode f cond target)) .clear = some .clear := by
  rw [jumpUnlessCode, instrLines, List.map_append, Spot.clear, walk_append_of_eq (walk_expr h 0)]
  rfl

theorem walk_leaveUnless {f : Function} {cond : Option Expr} (h : cond.bind (Expr.fault? f) = none)
    (target : Label) : walk (instrLines (leaveUnlessCode f cond target)) .clear = some .clear := by
  cases cond with
  | none => rfl
  | some cond => exact walk_jumpUnless h target

mutual

/-- **The code of a statement is walked through from a clear spot to a clear spot.** -/
theorem walk_stmt {f : Function} : ∀ {s : Stmt}, s.fault? f = none → ∀ n,
    walk (s.code f n) .clear = some .clear
  | .expr value, h, n => by
    rw [Stmt.fault?] at h
    rw [Stmt.code, instrLines, List.map_append, Spot.clear, walk_append_of_eq (walk_expr h 0)]
    rfl
  | .assign target value, h, n => by
    rw [Stmt.fault?, Option.orElse_eq_none] at h
    have haddress : walk (instrLines [.slotAddress (f.offset target) .rax, .push .rax]) ⟨0, false⟩ =
        some ⟨1, false⟩ := rfl
    rw [Stmt.code, instrLines, List.map_append, List.map_append, List.append_assoc, Spot.clear,
      walk_append_of_eq haddress, walk_append_of_eq (walk_expr h.2 1)]
    rfl
  | .ret value, h, n => by
    rw [Stmt.fault?] at h
    rw [Stmt.code, instrLines, List.map_append, Spot.clear, walk_append_of_eq (walk_expr h 0)]
    rfl
  | .block body, h, n => by
    rw [Stmt.fault?] at h
    rw [Stmt.code]
    exact walk_stmts h n
  | .branch init cond body other, h, n => by
    rw [Stmt.fault?, Option.orElse_eq_none, Option.orElse_eq_none, Option.orElse_eq_none] at h
    obtain ⟨hinit, hcond, hbody, hother⟩ := h
    rw [Stmt.code, walk_append_of_eq (walk_optStmt hinit _),
      walk_append_of_eq (walk_jumpUnless hcond _), walk_append_of_eq (walk_stmts hbody _)]
    have hjump : walk [.instr (.jump (.done n)), .label (.otherwise n)] .clear = some .clear := rfl
    rw [walk_append_of_eq hjump, walk_append_of_eq (walk_optStmt hother _)]
    rfl
  | .loop init cond post body, h, n => by
    rw [Stmt.fault?, Option.orElse_eq_none, Option.orElse_eq_none, Option.orElse_eq_none] at h
    obtain ⟨hinit, hcond, hbody, hpost⟩ := h
    have hlabel : walk [.label (.begin n)] .clear = some .clear := rfl
    rw [Stmt.code, walk_append_of_eq (walk_optStmt hinit _), walk_append_of_eq hlabel,
      walk_append_of_eq (walk_leaveUnless hcond _), walk_append_of_eq (walk_stmts hbody _),
      walk_append_of_eq (walk_optStmt hpost _)]
    rfl

theorem walk_stmts {f : Function} : ∀ {ss : List Stmt}, Stmt.faults? f ss = none → ∀ n,
    walk (Stmt.codes f n ss) .clear = some .clear
  | [], _, n => rfl
  | s :: ss, h, n => by
    rw [Stmt.faults?, Option.orElse_eq_none] at h
    rw [Stmt.codes, walk_append_of_eq (walk_stmt h.1 n)]
    exact walk_stmts h.2 _

theorem walk_optStmt {f : Function} : ∀ {s : Option Stmt}, Stmt.optFault? f s = none → ∀ n,
    walk (Stmt.optCode f n s) .clear = some .clear
  | none, _, n => rfl
  | some s, h, n => by
    rw [Stmt.optFault?] at h
    rw [Stmt.optCode]
    exact walk_stmt h n

end

/-! ## Where jumps lead -/

/-- The label that an instruction may jump to. -/
def Instr.target? : Instr → Option Label
  | .jump target => some target
  | .jumpEqual target => some target
  | _ => none

/-- Instructions that jump nowhere. -/
def Straight (is : List Instr) : Prop :=
  ∀ i ∈ is, i.target? = none

theorem Straight.append {a b : List Instr} (ha : Straight a) (hb : Straight b) :
    Straight (a ++ b) :=
  fun i hi => (List.mem_append.mp hi).elim (ha i) (hb i)

theorem straight_operation (op : BinaryOp) : Straight (operation op) := by
  cases op <;> simp [Straight, operation, operation.comparison, Instr.target?]

theorem straight_loadArguments (count : Nat) : Straight (loadArguments count) := by
  intro i hi
  obtain ⟨r, -, rfl⟩ := List.mem_map.mp hi
  rfl

theorem straight_callCode (callee : String) (d : Nat) : Straight (callCode callee d) := by
  unfold callCode
  cases Emit.needsPadding d <;> simp [Straight, Instr.target?]

mutual

/-- The code of an expression does not jump. -/
theorem straight_expr (f : Function) : ∀ (e : Expr) (d : Nat), Straight (e.code f d)
  | .num value, d => by simp [Expr.code, Straight, Instr.target?]
  | .var id, d => by simp [Expr.code, Straight, Instr.target?]
  | .binary op lhs rhs, d => by
    rw [Expr.code]
    refine ((straight_expr f lhs d).append (straight_expr f rhs (d + 1))).append
      (Straight.append (Straight.append ?_ (straight_operation op)) ?_)
    · simp [Straight, Instr.target?]
    · simp [Straight, Instr.target?]
  | .call callee args, d => by
    rw [Expr.code]
    refine ((straight_exprs f args d).append (straight_loadArguments _)).append
      ((straight_callCode callee d).append ?_)
    simp [Straight, Instr.target?]

theorem straight_exprs (f : Function) : ∀ (es : List Expr) (d : Nat), Straight (Expr.codes f d es)
  | [], d => by simp [Expr.codes, Straight]
  | e :: es, d => by
    rw [Expr.codes]
    exact (straight_expr f e d).append (straight_exprs f es (d + 1))

end

/-- Every jump of `code` leads to a label of `ls`. -/
def LeadTo (ls : List Label) (code : List Line) : Prop :=
  ∀ i, .instr i ∈ code → ∀ t, i.target? = some t → t ∈ ls

namespace LeadTo

variable {ls ms : List Label} {a b : List Line}

theorem append (ha : LeadTo ls a) (hb : LeadTo ls b) : LeadTo ls (a ++ b) :=
  fun i hi => (List.mem_append.mp hi).elim (ha i) (hb i)

theorem mono (ha : LeadTo ls a) (h : ls ⊆ ms) : LeadTo ms a :=
  fun i hi t ht => h (ha i hi t ht)

theorem of_straight {is : List Instr} (h : Straight is) : LeadTo ls (instrLines is) := by
  intro i hi t ht
  obtain ⟨j, hj, heq⟩ := List.mem_map.mp hi
  injection heq with heq
  rw [← heq, h j hj] at ht
  exact absurd ht (by simp)

end LeadTo

theorem leadTo_jumpUnless (f : Function) (cond : Expr) (target : Label) :
    LeadTo [target] (instrLines (jumpUnlessCode f cond target)) := by
  rw [jumpUnlessCode, instrLines, List.map_append]
  refine (LeadTo.of_straight (straight_expr f cond 0)).append ?_
  intro i hi t ht
  simp only [List.map_cons, List.map_nil, List.mem_cons, Line.instr.injEq, List.not_mem_nil,
    or_false] at hi
  rcases hi with rfl | rfl | rfl
  · exact absurd ht (by simp [Instr.target?])
  · exact absurd ht (by simp [Instr.target?])
  · rw [Instr.target?, Option.some_inj] at ht
    rw [ht]
    exact List.mem_singleton_self t

theorem leadTo_leaveUnless (f : Function) (cond : Option Expr) (target : Label) :
    LeadTo [target] (instrLines (leaveUnlessCode f cond target)) := by
  cases cond with
  | none => exact fun i hi => absurd hi (by simp [leaveUnlessCode])
  | some cond => exact leadTo_jumpUnless f cond target

theorem leadTo_jump (target : Label) : LeadTo [target] [.instr (.jump target)] := by
  intro i hi t ht
  rw [List.mem_singleton, Line.instr.injEq] at hi
  rw [hi, Instr.target?, Option.some_inj] at ht
  rw [ht]
  exact List.mem_singleton_self t

theorem leadTo_label (ls : List Label) (l : Label) : LeadTo ls [.label l] :=
  fun i hi => absurd hi (by simp)

mutual

/-- **Every jump of a statement stays inside it or leaves the function.** -/
theorem leadTo_stmt (f : Function) : ∀ (s : Stmt) (n : Nat),
    LeadTo (.exit f.name :: labels (s.code f n)) (s.code f n)
  | .expr value, n => by
    rw [Stmt.code]
    exact .of_straight ((straight_expr f value 0).append (by simp [Straight, Instr.target?]))
  | .assign target value, n => by
    rw [Stmt.code]
    refine .of_straight (Straight.append (Straight.append ?_ (straight_expr f value 1)) ?_)
    · simp [Straight, Instr.target?]
    · simp [Straight, Instr.target?]
  | .ret value, n => by
    rw [Stmt.code, List.append_cons, instrLines, List.map_append]
    refine LeadTo.append (.of_straight ((straight_expr f value 0).append ?_))
      ((leadTo_jump (.exit f.name)).mono (by simp))
    simp [Straight, Instr.target?]
  | .block body, n => by
    rw [Stmt.code]
    exact leadTo_stmts f body n
  | .branch init cond body other, n => by
    have hinit := leadTo_optStmt f init (n + 1)
    have hcond := leadTo_jumpUnless f cond (.otherwise n)
    have hbody := leadTo_stmts f body (n + 1 + Stmt.optLabelCount init)
    have hother := leadTo_optStmt f other
      (n + 1 + Stmt.optLabelCount init + Stmt.labelCounts body)
    rw [Stmt.code, List.cons_append]
    refine (hinit.mono ?_).append ((hcond.mono ?_).append ((hbody.mono ?_).append
      (((leadTo_jump (.done n)).mono ?_).append ((leadTo_label _ _).append
        ((hother.mono ?_).append (leadTo_label _ _))))))
    all_goals
      simp only [labels_append, labels_instrLines, labels_cons_instr, labels_cons_label,
        labels_nil]
      intro l hl
      simp only [List.mem_cons, List.mem_append, List.not_mem_nil, or_false, false_or] at hl ⊢
      grind
  | .loop init cond post body, n => by
    have hinit := leadTo_optStmt f init (n + 1)
    have hcond := leadTo_leaveUnless f cond (.done n)
    have hbody := leadTo_stmts f body (n + 1 + Stmt.optLabelCount init)
    have hpost := leadTo_optStmt f post
      (n + 1 + Stmt.optLabelCount init + Stmt.labelCounts body)
    rw [Stmt.code]
    refine (hinit.mono ?_).append ((leadTo_label _ _).append ((hcond.mono ?_).append
      ((hbody.mono ?_).append ((hpost.mono ?_).append
        (((leadTo_jump (.begin n)).mono ?_).append (leadTo_label _ _))))))
    all_goals
      simp only [labels_append, labels_instrLines, labels_cons_instr, labels_cons_label,
        labels_nil]
      intro l hl
      simp only [List.mem_cons, List.mem_append, List.not_mem_nil, or_false, false_or] at hl ⊢
      grind

theorem leadTo_stmts (f : Function) : ∀ (ss : List Stmt) (n : Nat),
    LeadTo (.exit f.name :: labels (Stmt.codes f n ss)) (Stmt.codes f n ss)
  | [], n => fun i hi => absurd hi (by simp [Stmt.codes])
  | s :: ss, n => by
    rw [Stmt.codes, labels_append]
    refine ((leadTo_stmt f s n).mono ?_).append ((leadTo_stmts f ss (n + s.labelCount)).mono ?_)
    · exact List.cons_subset_cons _ (List.subset_append_left _ _)
    · exact List.cons_subset_cons _ (List.subset_append_right _ _)

theorem leadTo_optStmt (f : Function) : ∀ (s : Option Stmt) (n : Nat),
    LeadTo (.exit f.name :: labels (Stmt.optCode f n s)) (Stmt.optCode f n s)
  | none, n => fun i hi => absurd hi (by simp [Stmt.optCode])
  | some s, n => by
    rw [Stmt.optCode]
    exact leadTo_stmt f s n

end

end Assembly
end MicroGo
