import Mathlib.Data.List.Basic
import MicroGo.Proofs.Assembly.Listing
import MicroGo.Proofs.Grammar.Calls

/-!
# The calls of a listing

Every call instruction of a listing makes a call of the text.  A *marking* says which one: it is the
listing with a call beside each line that makes one.  The marks are pinned down from several sides.
The line names the function of its call.  The instructions in front of it evaluate the arguments of
this very call and make the calls in them.  The code of each expression is a stretch of the code of
its function, and the marks in the stretch are the calls of the expression.  And all marks of a
function are the calls of its roots, one root behind the other.

The proof goes up from the parts of a text to the whole.  Each step joins the markings of the parts
(`IsMarked.append`), puts marks of its own between them (`IsMarked.call`), or adds an expression to
those whose code is accounted for (`IsMarked.occurrence`).
-/

namespace MicroGo

open Assembly Grammar

/-! ## Marked listings -/

/-- The function that a line calls. -/
def Assembly.Line.callee? : Line → Option String
  | .instr (.call callee) => some callee
  | _ => none

/-- A line of a listing, and the call of the text that it makes. -/
abbrev MarkedLine := Line × Option Call

/-- The calls that lines make. -/
def madeCalls (ms : List MarkedLine) : List Call :=
  ms.filterMap Prod.snd

/-- Lines that make no calls. -/
def unmarked (code : List Line) : List MarkedLine :=
  code.map fun line => (line, none)

theorem madeCalls_append (ms ms' : List MarkedLine) :
    madeCalls (ms ++ ms') = madeCalls ms ++ madeCalls ms' :=
  List.filterMap_append

@[simp] theorem madeCalls_unmarked (code : List Line) : madeCalls (unmarked code) = [] := by
  simp [madeCalls, unmarked]

@[simp] theorem map_fst_unmarked (code : List Line) : (unmarked code).map Prod.fst = code := by
  rw [unmarked, List.map_map]
  exact List.map_id code

/-- The marks of lines name the functions that these call. -/
theorem map_callee_madeCalls {ms : List MarkedLine}
    (h : ∀ m ∈ ms, m.1.callee? = m.2.map Call.callee) :
    (madeCalls ms).map Call.callee = (ms.map Prod.fst).filterMap Line.callee? := by
  rw [madeCalls, List.map_filterMap, List.filterMap_map]
  exact List.filterMap_congr fun m hm => (h m hm).symm

/-- **What is emitted for an expression**: the code that evaluates it, or, for the target of an
assignment, the code that gives its address. -/
inductive Expr.EmittedAs (f : Function) : Expr → List Instr → Prop where
  | value (e : Expr) (depth : Nat) : EmittedAs f e (e.code f depth)
  | target (id : VarId) : EmittedAs f (.var id) [.slotAddress (f.offset id) .rax, .push .rax]

/-- What is emitted in front of a call: the code that evaluates the arguments, brings them into
their registers and pads the stack. -/
def Expr.beforeCall (f : Function) (depth : Nat) (args : List Expr) : List Instr :=
  Expr.codes f depth args ++ (loadArguments args.length ++
    ((if Emit.needsPadding depth then [.subWord 8 .rsp] else []) ++ [.moveWord 0 .rax]))

/-- What is emitted behind a call. -/
def Expr.behindCall (depth : Nat) : List Instr :=
  (if Emit.needsPadding depth then [.addWord 8 .rsp] else []) ++ [.push .rax]

/-- **The call is made in the listing.**  There is a line that is marked with it, and in front of
this line stands the code of its arguments, which makes the calls in them. -/
def Grammar.Call.MadeIn (f : MicroGo.Function) (ms : List MarkedLine) (c : Call) : Prop :=
  ∃ front stretch back, ms = front ++ (stretch ++ (.instr (.call c.callee), some c) :: back) ∧
    (madeCalls stretch).Perm (c.args.calls (c.name + 2) c.past) ∧
    ∃ es depth, c.args.Denotes c.past es ∧
      stretch.map Prod.fst = instrLines (Expr.beforeCall f depth es)

/-- **The expression is emitted in the listing.**  What is emitted for it is a stretch of the lines,
and the calls that these make are those of the expression, in the given order. -/
def Grammar.Occurrence.EmittedIn (order : Occurrence → List Call) (f : MicroGo.Function)
    (ms : List MarkedLine) (o : Occurrence) : Prop :=
  ∃ front stretch back, ms = front ++ (stretch ++ back) ∧ madeCalls stretch = order o ∧
    ∃ e code, o.expression.Denotes o.past e ∧ e.EmittedAs f code ∧
      stretch.map Prod.fst = instrLines code

/-- **A marking of code** with the calls, which accounts for the expressions: a line is marked
exactly if it calls a function, and with a call of this function. -/
structure Marking (order : Occurrence → List Call) (f : Function) (code : List Line)
    (calls : List Call) (os : List Occurrence) (ms : List MarkedLine) : Prop where
  lines : ms.map Prod.fst = code
  agrees : ∀ m ∈ ms, m.1.callee? = m.2.map Call.callee
  marks : madeCalls ms = calls
  made : ∀ c ∈ calls, c.MadeIn f ms
  emitted : ∀ o ∈ os, o.EmittedIn order f ms

/-- **A marking of the code of functions**, the first token of which has the number `i` and the
first free label the number `n`.  Each function has a part of its own. -/
inductive MarkedFunctions (order : Occurrence → List Call) :
    List Grammar.Function → List Function → (i n : Nat) → List MarkedLine → Prop where
  | nil {i n : Nat} : MarkedFunctions order [] [] i n []
  | cons {t : Grammar.Function} {f : Function} {ts : List Grammar.Function} {fs : List Function}
      {i n : Nat} {own rest : List MarkedLine} (denotes : t.Denotes f)
      (marking : Marking order f (f.code n) ((t.roots i).flatMap order)
        ((t.roots i).flatMap Occurrence.within) own)
      (later : MarkedFunctions order ts fs (i + t.lexemes.length + 1)
        (n + Stmt.labelCounts f.body) rest) :
      MarkedFunctions order (t :: ts) (f :: fs) i n (own ++ rest)

/-! ## Joining markings -/

/-- The code can be marked with the calls in the order of their code. -/
def IsMarked (f : Function) (code : List Line) (calls : List Call) (os : List Occurrence) : Prop :=
  ∃ ms, Marking Occurrence.emitted f code calls os ms

section

variable {f : MicroGo.Function} {ms : List MarkedLine} {code code' : List Line}
  {calls calls' : List Call} {os os' : List Occurrence}

theorem Grammar.Call.MadeIn.extend {c : Call} (h : c.MadeIn f ms) (xs ys : List MarkedLine) :
    c.MadeIn f (xs ++ (ms ++ ys)) := by
  obtain ⟨front, stretch, back, rfl, hstretch⟩ := h
  refine ⟨xs ++ front, stretch, back ++ ys, ?_, hstretch⟩
  simp only [List.append_assoc, List.cons_append]

theorem Grammar.Occurrence.EmittedIn.extend {order : Occurrence → List Call} {o : Occurrence}
    (h : o.EmittedIn order f ms) (xs ys : List MarkedLine) :
    o.EmittedIn order f (xs ++ (ms ++ ys)) := by
  obtain ⟨front, stretch, back, rfl, hstretch⟩ := h
  refine ⟨xs ++ front, stretch, back ++ ys, ?_, hstretch⟩
  simp only [List.append_assoc]

namespace IsMarked

/-- Code that calls nothing. -/
theorem plain (h : ∀ line ∈ code, line.callee? = none) : IsMarked f code [] [] := by
  refine ⟨unmarked code, map_fst_unmarked code, ?_, madeCalls_unmarked code,
    List.forall_mem_nil _, List.forall_mem_nil _⟩
  intro m hm
  obtain ⟨line, hline, rfl⟩ := List.mem_map.1 hm
  exact h line hline

theorem append (h : IsMarked f code calls os) (h' : IsMarked f code' calls' os') :
    IsMarked f (code ++ code') (calls ++ calls') (os ++ os') := by
  obtain ⟨ms, hms⟩ := h
  obtain ⟨ms', hms'⟩ := h'
  refine ⟨ms ++ ms', ?_, ?_, ?_, ?_, ?_⟩
  · rw [List.map_append, hms.lines, hms'.lines]
  · exact List.forall_mem_append.2 ⟨hms.agrees, hms'.agrees⟩
  · rw [madeCalls_append, hms.marks, hms'.marks]
  · refine List.forall_mem_append.2 ⟨fun c hc => (hms.made c hc).extend [] ms', fun c hc => ?_⟩
    have hmade := (hms'.made c hc).extend ms []
    rwa [List.append_nil] at hmade
  · refine List.forall_mem_append.2 ⟨fun o ho => (hms.emitted o ho).extend [] ms', fun o ho => ?_⟩
    have hemitted := (hms'.emitted o ho).extend ms []
    rwa [List.append_nil] at hemitted

/-- Code behind which nothing is called. -/
theorem append_plain (h : IsMarked f code calls os) (h' : ∀ line ∈ code', line.callee? = none) :
    IsMarked f (code ++ code') calls os := by
  have happend := h.append (plain h')
  rwa [List.append_nil, List.append_nil] at happend

/-- Code in front of which nothing is called. -/
theorem plain_append (h : ∀ line ∈ code, line.callee? = none) (h' : IsMarked f code' calls os) :
    IsMarked f (code ++ code') calls os :=
  (plain h).append h'

/-- The expressions that are accounted for do not have an order. -/
theorem mono (h : IsMarked f code calls os) (hos : ∀ o ∈ os', o ∈ os) :
    IsMarked f code calls os' := by
  obtain ⟨ms, hms⟩ := h
  exact ⟨ms, hms.lines, hms.agrees, hms.marks, hms.made, fun o ho => hms.emitted o (hos o ho)⟩

/-- The code as a whole is that of an expression. -/
theorem occurrence {o : Occurrence} {e : Expr} {is : List Instr}
    (h : IsMarked f (instrLines is) o.emitted os) (he : o.expression.Denotes o.past e)
    (his : e.EmittedAs f is) : IsMarked f (instrLines is) o.emitted (o :: os) := by
  obtain ⟨ms, hms⟩ := h
  refine ⟨ms, hms.lines, hms.agrees, hms.marks, hms.made,
    List.forall_mem_cons.2 ⟨⟨[], ms, [], ?_, hms.marks, e, is, he, his, hms.lines⟩, hms.emitted⟩⟩
  rw [List.append_nil, List.nil_append]

end IsMarked

theorem callee?_loadArguments (count : Nat) :
    ∀ line ∈ instrLines (loadArguments count), line.callee? = none := by
  intro line hline
  obtain ⟨i, hi, rfl⟩ := List.mem_map.1 hline
  obtain ⟨r, -, rfl⟩ := List.mem_map.1 hi
  rfl

theorem Expr.code_call (callee : String) (args : List Expr) (depth : Nat) :
    (Expr.call callee args).code f depth =
      Expr.beforeCall f depth args ++ .call callee :: Expr.behindCall depth := by
  rw [Expr.code, callCode, Expr.beforeCall, Expr.behindCall]
  simp only [List.append_assoc, List.cons_append, List.nil_append]

/-- **A call behind the code of its arguments.** -/
theorem IsMarked.call {c : Call} {args : List Expr} {depth : Nat}
    (h : IsMarked f (instrLines (Expr.codes f depth args)) (c.args.emitted (c.name + 2) c.past) os)
    (hargs : c.args.Denotes c.past args) :
    IsMarked f (instrLines ((Expr.call c.callee args).code f depth))
      (c.args.emitted (c.name + 2) c.past ++ [c]) os := by
  obtain ⟨ms, hms⟩ : IsMarked f (instrLines (Expr.beforeCall f depth args))
      (c.args.emitted (c.name + 2) c.past) os := by
    rw [Expr.beforeCall, instrLines, List.map_append, List.map_append]
    refine h.append_plain (List.forall_mem_append.2 ⟨callee?_loadArguments _, ?_⟩)
    by_cases hpad : Emit.needsPadding depth
    · rw [if_pos hpad]
      simp [Line.callee?]
    · rw [if_neg hpad]
      simp [Line.callee?]
  obtain ⟨behind, hbehind⟩ : IsMarked f (instrLines (Expr.behindCall depth)) [] [] := by
    refine .plain ?_
    rw [Expr.behindCall]
    by_cases hpad : Emit.needsPadding depth
    · rw [if_pos hpad]
      simp [Line.callee?]
    · rw [if_neg hpad]
      simp [Line.callee?]
  refine ⟨ms ++ (.instr (.call c.callee), some c) :: behind, ?_, ?_, ?_, ?_, fun o ho => ?_⟩
  · rw [Expr.code_call, instrLines, List.map_append, List.map_append, List.map_cons, List.map_cons,
      hms.lines, hbehind.lines]
  · exact List.forall_mem_append.2 ⟨hms.agrees, List.forall_mem_cons.2 ⟨rfl, hbehind.agrees⟩⟩
  · rw [madeCalls_append, hms.marks]
    exact congrArg _ (congrArg _ hbehind.marks)
  · refine List.forall_mem_append.2 ⟨fun d hd => (hms.made d hd).extend [] _, ?_⟩
    refine List.forall_mem_singleton.2 ⟨[], ms, behind, rfl, ?_, args, depth, hargs, hms.lines⟩
    rw [hms.marks]
    exact (c.args.arranged _ _).perm
  · exact (hms.emitted o ho).extend [] _

/-! ## Expressions -/

/-- What is emitted for the expression can be marked with the calls. -/
def Expr.IsMarked (f : Function) (e : Expr) (calls : List Call) (os : List Occurrence) : Prop :=
  ∀ is, e.EmittedAs f is → MicroGo.IsMarked f (instrLines is) calls os

theorem callee?_operation (op : BinaryOp) :
    ∀ line ∈ instrLines ([.pop .rdi, .pop .rax] ++ operation op ++ [.push .rax]),
      line.callee? = none := by
  cases op <;> simp [operation, operation.comparison, Line.callee?]

theorem Expr.isMarked_binary {op : BinaryOp} {l r : Expr} (hl : l.IsMarked f calls os)
    (hr : r.IsMarked f calls' os') :
    (Expr.binary op l r).IsMarked f (calls ++ calls') (os ++ os') := by
  rintro _ ⟨_, depth⟩
  rw [Expr.code, instrLines, List.map_append, List.map_append]
  exact ((hl _ (.value l depth)).append (hr _ (.value r _))).append_plain (callee?_operation op)

theorem Expr.isMarked_num (value : Int64) : (Expr.num value).IsMarked f [] [] := by
  rintro _ ⟨_, depth⟩
  rw [Expr.code]
  exact .plain (by simp [Line.callee?])

theorem Expr.isMarked_var (id : VarId) : (Expr.var id).IsMarked f [] [] := by
  rintro _ (⟨_, depth⟩ | _)
  · rw [Expr.code]
    exact .plain (by simp [Line.callee?])
  · exact .plain (by simp [Line.callee?])

theorem Expr.isMarked_negate {e : Expr} (h : e.IsMarked f calls os) (n : Nat) :
    (Nat.repeat Parser.negate n e).IsMarked f calls os := by
  induction n with
  | zero => exact h
  | succ n ih => exact Expr.isMarked_binary (Expr.isMarked_num 0) ih

namespace Grammar

/-- What an operator makes of its operands. -/
theorem Operator.exists_combine {level : Nat} (op : Operator level) :
    ∃ o, ∀ l r, op.combine l r = if op.exchanges then .binary o r l else .binary o l r := by
  have htables : ∀ level, ∀ entry ∈ operators level, ∃ o, ∀ l r, entry.2 l r =
      if entry.1 = ">" || entry.1 = ">=" then .binary o r l else .binary o l r := by
    intro level entry hentry
    match level with
    | 0 =>
      simp only [operators, Parser.products, List.mem_cons, List.not_mem_nil, or_false] at hentry
      rcases hentry with rfl | rfl <;> exact ⟨_, fun _ _ => rfl⟩
    | 1 =>
      simp only [operators, Parser.sums, List.mem_cons, List.not_mem_nil, or_false] at hentry
      rcases hentry with rfl | rfl <;> exact ⟨_, fun _ _ => rfl⟩
    | 2 =>
      simp only [operators, Parser.comparisons, List.mem_cons, List.not_mem_nil, or_false] at hentry
      rcases hentry with rfl | rfl | rfl | rfl | rfl | rfl <;> exact ⟨_, fun _ _ => rfl⟩
    | _ + 3 => exact absurd hentry List.not_mem_nil
  obtain ⟨before, after, hsplit, -⟩ := List.lookup_eq_some_iff.1 op.listed
  exact htables level (op.text, op.combine) (by simp [hsplit])

mutual

/-- **What is emitted for an operand is marked with its calls**, and accounts for the expressions
within it. -/
theorem Operand.isMarked : ∀ {level : Nat} (t : Operand level) (i : Nat) {past : List Mark}
    {e : Expr}, t.Denotes past e → e.IsMarked f (t.emitted i past) (t.inner i past)
  | _, .unary signs operand, i, past, e, h => by
      obtain ⟨e', hoperand, rfl⟩ := h
      exact Expr.isMarked_negate (operand.isMarked (i + signs.length) hoperand) _
  | _, .chain first rest, i, past, e, h => by
      obtain ⟨left, hfirst, hrest⟩ := h
      exact rest.isMarked (i + first.lexemes.length) (first.isMarked i hfirst) hrest

/-- The rest of a chain behind a part of it that is marked. -/
theorem Links.isMarked : ∀ {level : Nat} (t : Links level) (i : Nat) {past : List Mark}
    {left e : Expr} {before : List Call} {os : List Occurrence}, left.IsMarked f before os →
    t.Denotes past left e → e.IsMarked f (t.emitted i past before) (os ++ t.inner i past)
  | _, .nil, i, past, left, e, before, os, hleft, h => by
      rw [show e = left from h, Links.inner, List.append_nil]
      exact hleft
  | _, .cons op operand rest, i, past, left, e, before, os, hleft, h => by
      obtain ⟨right, hoperand, hrest⟩ := h
      obtain ⟨o, hcombine⟩ := op.exists_combine
      have hright := operand.isMarked (i + 1) hoperand
      rw [Links.inner, ← List.append_assoc]
      refine rest.isMarked (i + 1 + operand.lexemes.length) ?_ hrest
      rw [hcombine]
      by_cases hop : op.exchanges
      · rw [if_pos hop, if_pos hop]
        intro is his
        refine (Expr.isMarked_binary hright hleft is his).mono fun o ho => ?_
        exact List.mem_append.2 (List.mem_append.1 ho).symm
      · rw [if_neg hop, if_neg hop]
        exact Expr.isMarked_binary hleft hright

theorem Primary.isMarked : ∀ (t : Primary) (i : Nat) {past : List Mark} {e : Expr},
    t.Denotes past e → e.IsMarked f (t.emitted i past) (t.inner i past)
  | .num text, i, past, e, h => by
      obtain ⟨value, -, rfl⟩ := h
      exact Expr.isMarked_num value
  | .name text, i, past, e, h => by
      obtain ⟨id, -, rfl⟩ := h
      exact Expr.isMarked_var id
  | .call callee args, i, past, e, h => by
      obtain ⟨es, hargs, rfl⟩ := h
      rintro _ ⟨_, depth⟩
      have hcodes := args.isMarked (i + 2) hargs depth
      exact MicroGo.IsMarked.call (c := ⟨callee, args, i, past⟩) hcodes hargs
  | .paren inner, i, past, e, h => fun is his =>
      (inner.isMarked (i + 1) h is his).occurrence (o := ⟨inner, i + 1, past⟩) h his

theorem Args.isMarked : ∀ (t : Args) (i : Nat) {past : List Mark} {es : List Expr},
    t.Denotes past es → ∀ depth,
      MicroGo.IsMarked f (instrLines (Expr.codes f depth es)) (t.emitted i past) (t.inner i past)
  | .close, i, past, es, h, depth => by
      rw [show es = [] from h, Expr.codes]
      exact .plain (List.forall_mem_nil _)
  | .last arg, i, past, es, h, depth => by
      obtain ⟨e, harg, rfl⟩ := h
      rw [Expr.codes, Expr.codes, List.append_nil]
      exact (arg.isMarked i harg _ (.value e depth)).occurrence (o := ⟨arg, i, past⟩) harg
        (.value e depth)
  | .next arg rest, i, past, es, h, depth => by
      obtain ⟨e, es', harg, hrest, rfl⟩ := h
      rw [Expr.codes, instrLines, List.map_append]
      have hfirst := (arg.isMarked i harg _ (.value e depth)).occurrence (o := ⟨arg, i, past⟩) harg
        (.value e depth)
      exact hfirst.append (rest.isMarked _ hrest (depth + 1))

end

end Grammar

/-! ## Statements -/

/-- The code can be marked with the calls of the roots, one root behind the other. -/
def RootsMarked (f : Function) (code : List Line) (roots : List Occurrence) : Prop :=
  IsMarked f code (roots.flatMap Occurrence.emitted) (roots.flatMap Occurrence.within)

namespace RootsMarked

variable {roots roots' : List Occurrence}

theorem append (h : RootsMarked f code roots) (h' : RootsMarked f code' roots') :
    RootsMarked f (code ++ code') (roots ++ roots') := by
  rw [RootsMarked, List.flatMap_append, List.flatMap_append]
  exact IsMarked.append h h'

theorem append_plain (h : RootsMarked f code roots) (h' : ∀ line ∈ code', line.callee? = none) :
    RootsMarked f (code ++ code') roots :=
  IsMarked.append_plain h h'

theorem plain_append (h : ∀ line ∈ code, line.callee? = none) (h' : RootsMarked f code' roots) :
    RootsMarked f (code ++ code') roots :=
  IsMarked.plain_append h h'

/-- What is emitted for a root. -/
theorem single {t : Expression} {past : List Mark} {e : Expr} (h : t.Denotes past e) (i : Nat)
    {is : List Instr} (his : e.EmittedAs f is) : RootsMarked f (instrLines is) (root t i past) := by
  rw [RootsMarked, root, List.flatMap_singleton, List.flatMap_singleton]
  exact (t.isMarked i h is his).occurrence h his

end RootsMarked

namespace Grammar

/-- What may be missing is marked if it is there. -/
theorem rootsMarked_opt {α : Type} {roots : α → Nat → List Mark → List Occurrence}
    {denotes : α → List Mark → Stmt → Prop}
    (hpart : ∀ (part : α) (i : Nat) {past : List Mark} {s : Stmt}, denotes part past s →
      ∀ n, RootsMarked f (s.code f n) (roots part i past))
    {part : Option α} (i : Nat) {past : List Mark} {s : Option Stmt}
    (h : OptDenotes denotes part past s) (n : Nat) :
    RootsMarked f (Stmt.optCode f n s) (optRoots roots part i past) := by
  cases part with
  | none =>
    rw [show s = none from h]
    exact .plain (List.forall_mem_nil _)
  | some part =>
    obtain ⟨s', hs', rfl⟩ := h
    exact hpart part i hs' n

theorem rootsMarked_assign {t : Expression} {past : List Mark} {id : VarId} {e : Expr}
    (h : t.Denotes past e) (i n : Nat) :
    RootsMarked f ((Stmt.assign id e).code f n) (root t i past) := by
  rw [Stmt.code, instrLines, List.map_append, List.map_append]
  have hvalue : RootsMarked f _ _ := .single h i (.value e 1)
  exact (RootsMarked.plain_append (by simp [Line.callee?]) hvalue).append_plain
    (by simp [Line.callee?])

theorem Simple.rootsMarked (t : Simple) (i : Nat) {past : List Mark} {s : Stmt}
    (h : t.Denotes past s) (n : Nat) : RootsMarked f (s.code f n) (t.roots i past) := by
  obtain ⟨left, right⟩ := t
  cases right with
  | none =>
    obtain ⟨e, hleft, rfl⟩ := h
    rw [Stmt.code, instrLines, List.map_append]
    exact (RootsMarked.single hleft i (.value e 0)).append_plain (by simp [Line.callee?])
  | some right =>
    obtain ⟨id, e, hleft, hright, rfl⟩ := h
    rw [Stmt.code, instrLines, List.map_append, List.map_append]
    have htarget : RootsMarked f _ _ := .single hleft i (.target id)
    have hvalue : RootsMarked f _ _ :=
      .single hright (i + left.lexemes.length + 1) (.value e 1)
    exact (htarget.append hvalue).append_plain (by simp [Line.callee?])

theorem Local.rootsMarked (t : Local) (i : Nat) {past : List Mark} {s : Stmt}
    (h : t.Denotes past s) (n : Nat) : RootsMarked f (s.code f n) (t.roots i past) := by
  cases t with
  | typed name value =>
    obtain ⟨e, hvalue, rfl⟩ := h
    cases value with
    | none =>
      rw [show e = .num 0 from hvalue, Stmt.code, Expr.code]
      exact .plain (by simp [Line.callee?])
    | some value => exact rootsMarked_assign hvalue (i + 3) n
  | inferred name value =>
    obtain ⟨e, hvalue, rfl⟩ := h
    exact rootsMarked_assign hvalue (i + 2) n

theorem rootsMarked_cond {t : Expression} {past : List Mark} {c : Expr} (h : t.Denotes past c)
    (i : Nat) (target : Label) :
    RootsMarked f (instrLines (jumpUnlessCode f c target)) (root t i past) := by
  rw [jumpUnlessCode, instrLines, List.map_append]
  exact (RootsMarked.single h i (.value c 0)).append_plain (by simp [Line.callee?])

/-- The clauses of a loop: the first two in front of the body, the last one behind it. -/
theorem LoopHead.rootsMarked (t : LoopHead) (i : Nat) {past : List Mark} {init post : Option Stmt}
    {cond : Option Expr} (h : t.Denotes past (init, cond, post)) (n m : Nat)
    (start target : Label) :
    RootsMarked f
        (Stmt.optCode f n init ++ ([.label start] ++ instrLines (leaveUnlessCode f cond target)))
        (t.roots i past) ∧
      RootsMarked f (Stmt.optCode f m post) (t.postRoots i past) := by
  have hstart : ∀ line ∈ [Line.label start], line.callee? = none :=
    List.forall_mem_singleton.2 rfl
  cases t with
  | forever =>
    cases h
    exact ⟨.plain hstart, .plain (List.forall_mem_nil _)⟩
  | «while» c =>
    obtain ⟨e, hc, hparts⟩ := h
    cases hparts
    have hcond : RootsMarked f _ (root c i past) :=
      .plain_append hstart (rootsMarked_cond hc i target)
    exact ⟨hcond, .plain (List.forall_mem_nil _)⟩
  | clauses ti tc tp =>
    obtain ⟨i', c', p', hi, hc, hp, hparts⟩ := h
    cases hparts
    refine ⟨(rootsMarked_opt Simple.rootsMarked i hi n).append (.plain_append hstart ?_),
      rootsMarked_opt Simple.rootsMarked _ hp m⟩
    cases tc with
    | none =>
      rw [show cond = none from hc]
      exact .plain (List.forall_mem_nil _)
    | some tc =>
      obtain ⟨c', hc', rfl⟩ := hc
      exact rootsMarked_cond hc' _ target

mutual

/-- **The code of a statement is marked with the calls of its roots.** -/
theorem Statement.rootsMarked : ∀ (t : Statement) (i : Nat) {past : List Mark} {s : Stmt},
    t.Denotes past s → ∀ n, RootsMarked f (s.code f n) (t.roots i past)
  | .ret value, i, past, s, h, n => by
      obtain ⟨e, hvalue, rfl⟩ := h
      rw [Stmt.code, instrLines, List.map_append]
      exact (RootsMarked.single hvalue (i + 1) (.value e 0)).append_plain (by simp [Line.callee?])
  | .declare decl, i, past, s, h, n => decl.rootsMarked (i + 1) h n
  | .branch cases, i, past, s, h, n => cases.rootsMarked (i + 1) h n
  | .loop head body, i, past, s, h, n => by
      obtain ⟨init, cond, post, b, hhead, hbody, rfl⟩ := h
      obtain ⟨hfront, hpost⟩ := head.rootsMarked (i + 1) hhead (n + 1)
        (n + 1 + Stmt.optLabelCount init + Stmt.labelCounts b) (.begin n) (.done n)
      have hb := body.rootsMarked (i + 1 + head.lexemes.length + 1) hbody
        (n + 1 + Stmt.optLabelCount init)
      have hend : ∀ line ∈ [Line.instr (.jump (.begin n)), .label (.done n)],
          line.callee? = none := by simp [Line.callee?]
      have hall := hfront.append ((hb.append hpost).append_plain hend)
      rw [Stmt.code, Statement.roots]
      simpa only [List.append_assoc] using hall
  | .block body, i, past, s, h, n => by
      obtain ⟨b, hbody, rfl⟩ := h
      rw [Stmt.code]
      exact body.rootsMarked (i + 1) hbody n
  | .simple stmt, i, past, s, h, n => stmt.rootsMarked i h n

theorem Conditional.rootsMarked : ∀ (t : Conditional) (i : Nat) {past : List Mark} {s : Stmt},
    t.Denotes past s → ∀ n, RootsMarked f (s.code f n) (t.roots i past)
  | .mk init cond body other, i, past, s, h, n => by
      obtain ⟨i', c, b, o, hi, hc, hb, ho, rfl⟩ := h
      have hother := other.rootsMarked
        (i + (initLexemes init).length + cond.lexemes.length + 1 + body.lexemes.length) ho
        (n + 1 + Stmt.optLabelCount i' + Stmt.labelCounts b)
      have hjoin : ∀ line ∈ [Line.instr (.jump (.done n)), .label (.otherwise n)],
          line.callee? = none := by simp [Line.callee?]
      have hend : ∀ line ∈ [Line.label (.done n)], line.callee? = none :=
        List.forall_mem_singleton.2 rfl
      have hbody := body.rootsMarked
        (i + (initLexemes init).length + cond.lexemes.length + 1) hb
        (n + 1 + Stmt.optLabelCount i')
      rw [Stmt.code, Conditional.roots]
      exact (rootsMarked_opt Simple.rootsMarked i hi (n + 1)).append
        ((rootsMarked_cond hc _ (.otherwise n)).append
          (hbody.append (.plain_append hjoin (hother.append_plain hend))))

theorem Otherwise.rootsMarked : ∀ (t : Otherwise) (i : Nat) {past : List Mark} {s : Option Stmt},
    t.Denotes past s → ∀ n, RootsMarked f (Stmt.optCode f n s) (t.roots i past)
  | .none, i, past, s, h, n => by
      rw [show s = none from h]
      exact .plain (List.forall_mem_nil _)
  | .elseIf cases, i, past, s, h, n => by
      obtain ⟨s', hcases, rfl⟩ := h
      exact cases.rootsMarked (i + 2) hcases n
  | .elseBlock body, i, past, s, h, n => by
      obtain ⟨b, hbody, rfl⟩ := h
      rw [Stmt.optCode, Stmt.code]
      exact body.rootsMarked (i + 2) hbody n

theorem Body.rootsMarked : ∀ (t : Body) (i : Nat) {past : List Mark} {ss : List Stmt},
    t.Denotes past ss → ∀ n, RootsMarked f (Stmt.codes f n ss) (t.roots i past)
  | .close, i, past, ss, h, n => by
      rw [show ss = [] from h, Stmt.codes]
      exact .plain (List.forall_mem_nil _)
  | .skip rest, i, past, ss, h, n => rest.rootsMarked (i + 1) h n
  | .last stmt, i, past, ss, h, n => by
      obtain ⟨s, hstmt, rfl⟩ := h
      rw [Stmt.codes, Stmt.codes, List.append_nil]
      exact stmt.rootsMarked i hstmt n
  | .next stmt rest, i, past, ss, h, n => by
      obtain ⟨s, ss', hstmt, hrest, rfl⟩ := h
      rw [Stmt.codes]
      exact (stmt.rootsMarked i hstmt n).append (rest.rootsMarked _ hrest _)

end

/-! ## Functions -/

theorem callee?_setup (g : MicroGo.Function) :
    ∀ line ∈ [.global g.name, .label (.entry g.name)] ++ instrLines g.setup,
      line.callee? = none := by
  have hsetup : ∀ i ∈ g.setup, (Line.instr i).callee? = none := by
    intro i hi
    simp only [MicroGo.Function.setup, List.mem_append, List.mem_map] at hi
    rcases hi with ((⟨r, -, rfl⟩ | hi) | hi) | ⟨q, -, rfl⟩
    · rfl
    · simp only [List.mem_cons, List.not_mem_nil, or_false] at hi
      rcases hi with rfl | rfl <;> rfl
    · split at hi
      · rw [List.mem_singleton.1 hi]
        rfl
      · exact absurd hi List.not_mem_nil
    · rfl
  refine List.forall_mem_append.2 ⟨by simp [Line.callee?], fun line hline => ?_⟩
  obtain ⟨i, hi, rfl⟩ := List.mem_map.1 hline
  exact hsetup i hi

theorem callee?_teardown (g : MicroGo.Function) :
    ∀ line ∈ [.instr (.moveWord 0 .rax), .label (.exit g.name)] ++
      instrLines MicroGo.Function.teardown, line.callee? = none := by
  simp [MicroGo.Function.teardown, savedRegs, Line.callee?]

theorem Function.rootsMarked {t : Function} (h : t.Denotes f) (i n : Nat) :
    RootsMarked f (f.code n) (t.roots i) := by
  rw [MicroGo.Function.code, List.append_assoc _ _ (instrLines MicroGo.Function.teardown)]
  exact (RootsMarked.plain_append (callee?_setup f) (t.body.rootsMarked _ h.body n)).append_plain
    (callee?_teardown f)

/-- **The code of functions is marked.** -/
theorem exists_markedFunctions {ts : List Function} {fs : List MicroGo.Function}
    (h : List.Forall₂ Function.Denotes ts fs) (i n : Nat) :
    ∃ ms, MarkedFunctions Occurrence.emitted ts fs i n ms := by
  induction h generalizing i n with
  | nil => exact ⟨[], .nil⟩
  | @cons t f ts fs ht hts ih =>
    obtain ⟨own, hown⟩ := Function.rootsMarked ht i n
    obtain ⟨rest, hrest⟩ := ih (i + t.lexemes.length + 1) (n + Stmt.labelCounts f.body)
    exact ⟨own ++ rest, .cons ht hown hrest⟩

end Grammar

end

namespace MarkedFunctions

variable {order : Occurrence → List Call} {ts : List Grammar.Function} {fs : List Function}
  {i n : Nat} {ms : List MarkedLine}

theorem lines (h : MarkedFunctions order ts fs i n ms) :
    ms.map Prod.fst = Program.codes n fs := by
  induction h with
  | nil => rfl
  | cons _ marking _ ih => rw [List.map_append, marking.lines, ih, Program.codes]

theorem agrees (h : MarkedFunctions order ts fs i n ms) :
    ∀ m ∈ ms, m.1.callee? = m.2.map Call.callee := by
  induction h with
  | nil => exact List.forall_mem_nil _
  | cons _ marking _ ih => exact List.forall_mem_append.2 ⟨marking.agrees, ih⟩

theorem marks (h : MarkedFunctions order ts fs i n ms) :
    madeCalls ms = (functionRoots ts i).flatMap order := by
  induction h with
  | nil => rfl
  | cons _ marking _ ih =>
    rw [madeCalls_append, marking.marks, ih, functionRoots, List.flatMap_append]

/-- The calls of each expression are made in a stretch of their own. -/
theorem exists_stretch (h : MarkedFunctions order ts fs i n ms) :
    ∀ o ∈ (functionRoots ts i).flatMap Occurrence.within, ∃ front stretch back,
      ms = front ++ (stretch ++ back) ∧ madeCalls stretch = order o := by
  induction h with
  | nil => exact List.forall_mem_nil _
  | @cons t f ts fs i n own rest _ marking _ ih =>
    rw [functionRoots, List.flatMap_append]
    refine List.forall_mem_append.2 ⟨fun o ho => ?_, fun o ho => ?_⟩
    · obtain ⟨front, stretch, back, rfl, hmade, -⟩ := marking.emitted o ho
      exact ⟨front, stretch, back ++ rest, by simp only [List.append_assoc], hmade⟩
    · obtain ⟨front, stretch, back, rfl, hmade⟩ := ih o ho
      exact ⟨own ++ front, stretch, back, by simp only [List.append_assoc], hmade⟩

end MarkedFunctions

end MicroGo
