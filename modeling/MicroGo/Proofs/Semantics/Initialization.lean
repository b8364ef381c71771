import MicroGo.Proofs.Compile.Stages
import MicroGo.Proofs.Semantics.Independence
import MicroGo.Proofs.Semantics.Steps

/-!
# Each local has a value before it is used

A function starts with whatever lies in the slots of its locals, and a slot that is read before it
is written would show this.  In a program that was read from a text none is: whichever way control
takes through the body of a function, each variable that an expression uses is a parameter or was
assigned on this way.  So two executions that start with the same parameters go on side by side for
ever, or end after the same number of steps in the same way.

The invariant is that the statements which are left to do are closed over the variables known by
now.  It is said of lists of statements already (`Stmt.AllClosed`), so it can be said of an
execution: the statements of a block are put in front of those behind the block, which then know
more than they need.  One lemma says what a step does to it (`closed_ofStmts`), and both results
follow from it, for a route and for two executions.
-/

namespace MicroGo

variable {σ : Type} {callee : Callee σ} {n : Nat} {known known' : VarId → Prop}

/-! ## Closed trees -/

mutual

/-- The variable occurs in the expression. -/
def Expr.Uses (id : VarId) : Expr → Prop
  | .num _ => False
  | .var used => used = id
  | .binary _ lhs rhs => Expr.Uses id lhs ∨ Expr.Uses id rhs
  | .call _ args => Expr.AnyUses id args

/-- The variable occurs in one of the expressions. -/
def Expr.AnyUses (id : VarId) : List Expr → Prop
  | [] => False
  | e :: es => Expr.Uses id e ∨ Expr.AnyUses id es

end

mutual

/-- A closed expression uses known variables only. -/
theorem Expr.Closed.known_of_uses {id : VarId} :
    ∀ {e : Expr}, e.Closed known → e.Uses id → known id
  | .num _, _, huses => by
      rw [Expr.Uses] at huses
      exact huses.elim
  | .var used, h, huses => by
      rw [Expr.Closed] at h
      rw [Expr.Uses] at huses
      exact huses ▸ h
  | .binary _ lhs rhs, h, huses => by
      rw [Expr.Closed] at h
      rw [Expr.Uses] at huses
      exact huses.elim (Expr.Closed.known_of_uses h.1) (Expr.Closed.known_of_uses h.2)
  | .call _ args, h, huses => by
      rw [Expr.Closed] at h
      rw [Expr.Uses] at huses
      exact Expr.known_of_anyUses h.2 huses

theorem Expr.known_of_anyUses {id : VarId} :
    ∀ {es : List Expr}, Expr.AllClosed known es → Expr.AnyUses id es → known id
  | [], _, huses => by
      rw [Expr.AnyUses] at huses
      exact huses.elim
  | e :: es, h, huses => by
      rw [Expr.AllClosed] at h
      rw [Expr.AnyUses] at huses
      exact huses.elim (Expr.Closed.known_of_uses h.1) (Expr.known_of_anyUses h.2)

end

mutual

theorem Expr.Closed.mono (hle : ∀ id, known id → known' id) :
    ∀ {e : Expr}, e.Closed known → e.Closed known'
  | .num _, _ => by rw [Expr.Closed]; trivial
  | .var id, h => by
      rw [Expr.Closed] at h ⊢
      exact hle id h
  | .binary _ lhs rhs, h => by
      rw [Expr.Closed] at h ⊢
      exact ⟨h.1.mono hle, h.2.mono hle⟩
  | .call _ args, h => by
      rw [Expr.Closed] at h ⊢
      exact ⟨h.1, Expr.allClosed_mono hle h.2⟩

theorem Expr.allClosed_mono (hle : ∀ id, known id → known' id) :
    ∀ {es : List Expr}, Expr.AllClosed known es → Expr.AllClosed known' es
  | [], _ => by rw [Expr.AllClosed]; trivial
  | e :: es, h => by
      rw [Expr.AllClosed] at h ⊢
      exact ⟨h.1.mono hle, Expr.allClosed_mono hle h.2⟩

end

theorem knownWith_mono (hle : ∀ id, known id → known' id) (new : Option VarId) :
    ∀ id, knownWith known new id → knownWith known' new id :=
  fun id => Or.imp_left (hle id)

mutual

theorem Stmt.Closed.mono : ∀ {s : Stmt} {known known' : VarId → Prop},
    s.Closed n known → (∀ id, known id → known' id) → s.Closed n known'
  | .expr value, known, known', h, hle => by
      rw [Stmt.Closed] at h ⊢
      exact h.mono hle
  | .assign target value, known, known', h, hle => by
      rw [Stmt.Closed] at h ⊢
      exact ⟨h.1, h.2.mono hle⟩
  | .ret value, known, known', h, hle => by
      rw [Stmt.Closed] at h ⊢
      exact h.mono hle
  | .block body, known, known', h, hle => by
      rw [Stmt.Closed] at h ⊢
      exact Stmt.allClosed_mono h hle
  | .branch init cond body other, known, known', h, hle => by
      rw [Stmt.Closed] at h ⊢
      have hle' := knownWith_mono hle (init.bind Stmt.target?)
      exact ⟨Stmt.optClosed_mono h.1 hle, h.2.1.mono hle', Stmt.allClosed_mono h.2.2.1 hle',
        Stmt.optClosed_mono h.2.2.2 hle'⟩
  | .loop init cond post body, known, known', h, hle => by
      rw [Stmt.Closed] at h ⊢
      have hle' := knownWith_mono hle (init.bind Stmt.target?)
      exact ⟨Stmt.optClosed_mono h.1 hle, fun e he => (h.2.1 e he).mono hle',
        Stmt.allClosed_mono h.2.2.1 hle', Stmt.optClosed_mono h.2.2.2 hle'⟩

/-- What more variables are known does no harm. -/
theorem Stmt.allClosed_mono : ∀ {ss : List Stmt} {known known' : VarId → Prop},
    Stmt.AllClosed n known ss → (∀ id, known id → known' id) → Stmt.AllClosed n known' ss
  | [], known, known', _, _ => by rw [Stmt.AllClosed]; trivial
  | s :: ss, known, known', h, hle => by
      rw [Stmt.AllClosed] at h ⊢
      exact ⟨h.1.mono hle, Stmt.allClosed_mono h.2 (knownWith_mono hle s.target?)⟩

theorem Stmt.optClosed_mono : ∀ {s : Option Stmt} {known known' : VarId → Prop},
    Stmt.OptClosed n known s → (∀ id, known id → known' id) → Stmt.OptClosed n known' s
  | none, known, known', _, _ => by rw [Stmt.OptClosed]; trivial
  | some s, known, known', h, hle => by
      rw [Stmt.OptClosed] at h ⊢
      exact h.mono hle

end

/-- Statements may be put in front of others. -/
theorem Stmt.allClosed_append : ∀ {ss ts : List Stmt} {known : VarId → Prop},
    Stmt.AllClosed n known ss → Stmt.AllClosed n known ts → Stmt.AllClosed n known (ss ++ ts)
  | [], _, _, _, hts => hts
  | s :: ss, ts, known, hss, hts => by
      rw [Stmt.AllClosed] at hss
      rw [List.cons_append, Stmt.AllClosed]
      exact ⟨hss.1, Stmt.allClosed_append hss.2 (Stmt.allClosed_mono hts fun _ => .inl)⟩

theorem Stmt.OptClosed.toList {s : Option Stmt} (h : Stmt.OptClosed n known s) :
    Stmt.AllClosed n known s.toList := by
  cases s with
  | none =>
      show Stmt.AllClosed n known []
      rw [Stmt.AllClosed]
      trivial
  | some s =>
      rw [Stmt.OptClosed] at h
      show Stmt.AllClosed n known [s]
      rw [Stmt.AllClosed, Stmt.AllClosed]
      exact ⟨h, trivial⟩

/-! ## One step -/

/-- The step evaluates an expression over known variables, and what is left to do is closed over
these and the variable that it assigns. -/
structure Move.Closed (n : Nat) (known : VarId → Prop) (m : Move) : Prop where
  reads : ∀ e ∈ m.reads, e.Closed known
  next : ∀ v todo, m.next v = .inl todo → Stmt.AllClosed n (knownWith known m.writes) todo

theorem Stmt.allClosed_knownWith_none {ss : List Stmt}
    (h : Stmt.AllClosed n (knownWith known none) ss) : Stmt.AllClosed n known ss :=
  Stmt.allClosed_mono h fun _ hid => hid.resolve_right nofun

/-- A step that assigns nothing. -/
theorem Move.closed_mk {reads : Option Expr} {next : Int64 → List Stmt ⊕ Completion}
    (hreads : ∀ e ∈ reads, e.Closed known)
    (hnext : ∀ v todo, next v = .inl todo → Stmt.AllClosed n known todo) :
    Move.Closed n known ⟨reads, none, next⟩ :=
  ⟨hreads, fun v todo htodo => Stmt.allClosed_mono (hnext v todo htodo) fun _ => .inl⟩

/-- A step that assigns nothing and goes on in one way only. -/
theorem Move.closed_plain {reads : Option Expr} {rest : List Stmt}
    (hreads : ∀ e ∈ reads, e.Closed known) (hrest : Stmt.AllClosed n known rest) :
    Move.Closed n known ⟨reads, none, fun _ => .inl rest⟩ := by
  refine Move.closed_mk hreads fun v todo htodo => ?_
  cases htodo
  exact hrest

/-- **A step keeps the statements that are left closed.** -/
theorem Move.closed_ofStmts {todo : List Stmt} (h : Stmt.AllClosed n known todo) :
    (Move.ofStmts todo).Closed n known := by
  cases todo with
  | nil => exact Move.closed_mk (by simp) (by simp)
  | cons s todo =>
  rw [Stmt.AllClosed] at h
  obtain ⟨hs, htodo⟩ := h
  cases s with
  | expr value =>
      rw [Stmt.Closed] at hs
      exact Move.closed_plain (by simpa using hs) (Stmt.allClosed_knownWith_none htodo)
  | assign target value =>
      rw [Stmt.Closed] at hs
      refine ⟨by simpa [Move.ofStmts] using hs.2, fun v rest hrest => ?_⟩
      cases hrest
      exact htodo
  | ret value =>
      rw [Stmt.Closed] at hs
      exact Move.closed_mk (by simpa using hs) (by simp)
  | block body =>
      rw [Stmt.Closed] at hs
      exact Move.closed_plain (by simp)
        (Stmt.allClosed_append hs (Stmt.allClosed_knownWith_none htodo))
  | branch init cond body other =>
      rw [Stmt.Closed] at hs
      obtain ⟨hinit, hcond, hbody, hother⟩ := hs
      have htodo' := Stmt.allClosed_knownWith_none htodo
      cases init with
      | none =>
          refine Move.closed_mk ?_ fun v rest hrest => ?_
          · simpa using hcond.mono fun _ hid => hid.resolve_right nofun
          · cases hrest
            refine Stmt.allClosed_append ?_ htodo'
            by_cases hv : v ≠ 0
            · rw [if_pos hv]
              exact Stmt.allClosed_knownWith_none hbody
            · rw [if_neg hv]
              exact Stmt.allClosed_knownWith_none hother.toList
      | some init =>
          refine Move.closed_plain (by simp) ?_
          rw [Stmt.OptClosed] at hinit
          rw [Stmt.AllClosed, Stmt.AllClosed, Stmt.Closed]
          -- the condition and what depends on it still know what the first statement assigns
          have hle := fun id (hid : knownWith known init.target? id) =>
            (Or.inl hid : knownWith (knownWith known init.target?) none id)
          refine ⟨hinit, ⟨by rw [Stmt.OptClosed]; trivial, hcond.mono hle,
            Stmt.allClosed_mono hbody hle, Stmt.optClosed_mono hother hle⟩, ?_⟩
          exact Stmt.allClosed_mono htodo' fun id hid => .inl (.inl hid)
  | loop init cond post body =>
      have hloop := hs
      rw [Stmt.Closed] at hs
      obtain ⟨hinit, hcond, hbody, hpost⟩ := hs
      have htodo' := Stmt.allClosed_knownWith_none htodo
      cases init with
      | none =>
          refine Move.closed_mk ?_ fun v rest hrest => ?_
          · exact fun e he => (hcond e he).mono fun _ hid => hid.resolve_right nofun
          · cases hrest
            by_cases hv : cond = none ∨ v ≠ 0
            · rw [if_pos hv]
              -- the loop stands behind its own round, and knows there what it knew before
              refine Stmt.allClosed_append (Stmt.allClosed_knownWith_none hbody) ?_
              refine Stmt.allClosed_append (Stmt.allClosed_knownWith_none hpost.toList) ?_
              rw [Stmt.AllClosed]
              exact ⟨hloop, htodo⟩
            · rw [if_neg hv]
              exact htodo'
      | some init =>
          refine Move.closed_plain (by simp) ?_
          rw [Stmt.OptClosed] at hinit
          rw [Stmt.AllClosed, Stmt.AllClosed, Stmt.Closed]
          have hle := fun id (hid : knownWith known init.target? id) =>
            (Or.inl hid : knownWith (knownWith known init.target?) none id)
          refine ⟨hinit, ⟨by rw [Stmt.OptClosed]; trivial, fun e he => (hcond e he).mono hle,
            Stmt.allClosed_mono hbody hle, Stmt.optClosed_mono hpost hle⟩, ?_⟩
          exact Stmt.allClosed_mono htodo' fun id hid => .inl (.inl hid)

/-! ## Routes -/

/-- **Along a route** the known variables are those known at its start and those assigned on it. -/
theorem Route.allClosed {todo last : List Stmt} {moves : List Move} (hroute : Route todo moves last)
    (h : Stmt.AllClosed n known todo) :
    Stmt.AllClosed n (fun id => known id ∨ ∃ m ∈ moves, m.writes = some id) last := by
  induction hroute generalizing known with
  | nil todo => exact Stmt.allClosed_mono h fun _ => .inl
  | @cons todo mid last moves v hnext hrest ih =>
      refine Stmt.allClosed_mono (ih ((Move.closed_ofStmts h).next v mid hnext)) ?_
      rintro id ((hid | hid) | ⟨m, hm, hid⟩)
      · exact .inl hid
      · exact .inr ⟨_, List.mem_cons_self, hid⟩
      · exact .inr ⟨m, List.mem_cons_of_mem _ hm, hid⟩

/-! ## Two executions -/

namespace Execution

/-- The executions have the same statements to do and agree on what these may use, or have ended in
the same way. -/
inductive Alike (n : Nat) : Execution σ → Execution σ → Prop
  | running {known : VarId → Prop} {todo : List Stmt} {s t : Store σ}
      (hclosed : Stmt.AllClosed n known todo) (hstores : s.Alike known t) :
      Alike n (.running todo s) (.running todo t)
  | ended (outcome : Except DivisionFault Completion) (world : σ) :
      Alike n (.ended outcome world) (.ended outcome world)

variable {c c' : Execution σ}

theorem Alike.outcome?_eq (h : Alike n c c') : c.outcome? = c'.outcome? := by
  cases h with
  | running hclosed hstores => rfl
  | ended outcome world => rfl

theorem alike_follow {m : Move} (hm : m.Closed n known) {s t : Store σ} (hst : s.Alike known t)
    (v : Int64) : Alike n (m.follow v s) (m.follow v t) := by
  unfold Move.follow
  cases hnext : m.next v with
  | inr completion =>
      rw [Sum.elim_inr, Sum.elim_inr, hst.world]
      exact .ended _ _
  | inl todo =>
      refine .running (hm.next v todo hnext) ?_
      cases hwrites : m.writes with
      | none => exact hst.mono fun id hid => hid.resolve_right nofun
      | some target => exact hst.assign target v

/-- The step lemma: executions that are alike stay alike. -/
theorem Alike.step (h : Alike n c c') : Alike n (step callee c) (step callee c') := by
  cases h with
  | ended outcome world => exact .ended outcome world
  | @running known todo s t hclosed hstores =>
      have hm := Move.closed_ofStmts hclosed
      have hvalue : (Move.ofStmts todo).value callee s.env =
          (Move.ofStmts todo).value callee t.env := by
        unfold Move.value
        cases hreads : (Move.ofStmts todo).reads with
        | none => rfl
        | some e => exact Expr.eval_congr hstores.env e (hm.reads e hreads)
      rw [Execution.step, Execution.step, hvalue, hstores.world]
      cases (Move.ofStmts todo).value callee t.env t.world with
      | ok v world =>
          refine alike_follow hm ?_ v
          exact ⟨rfl, hstores.env⟩
      | error fault world => exact .ended _ _

theorem Alike.steps (h : Alike n c c') (k : Nat) :
    Alike n (steps callee k c) (steps callee k c') := by
  induction k generalizing c c' with
  | zero => exact h
  | succ k ih =>
      rw [steps_succ, steps_succ]
      exact ih h.step

end Execution

/-! ## Programs that were read -/

/-- **No local is read before it has a value.**  In a program that was read, two executions of the
body of a function that start with the same parameters in the same world have the same outcome after
each number of steps, whatever the other variables are at the start and whatever calls do.  On each
route through the body a variable that is about to be used is a parameter or was assigned on the
route, and each execution follows a route. -/
theorem parse_initializes_locals {tokens : List Token} {p : Program}
    (h : (Program.parse tokens).result = .ok p) {f : Function} (hf : f ∈ p.functions) :
    (∀ {σ : Type} (callee : Callee σ) (world : σ) (env env' : Env),
      (∀ id < f.params.length, env id = env' id) → ∀ k,
        (Execution.steps callee k (.running f.body ⟨env, world⟩)).outcome? =
          (Execution.steps callee k (.running f.body ⟨env', world⟩)).outcome?) ∧
    (∀ moves todo, Route f.body moves todo → ∀ e ∈ (Move.ofStmts todo).reads, ∀ id, e.Uses id →
      id < f.params.length ∨ ∃ m ∈ moves, m.writes = some id) ∧
    ∀ {σ : Type} (callee : Callee σ) (k : Nat) (s s' : Store σ) (todo : List Stmt),
      Execution.steps callee k (.running f.body s) = .running todo s' →
        ∃ moves, moves.length = k ∧ Route f.body moves todo := by
  have hclosed := ((wellFormed_of_parse h).functions f hf).closed
  refine ⟨?_, ?_, ?_⟩
  · intro σ callee world env env' henv k
    have halike : Execution.Alike f.vars.length (.running f.body ⟨env, world⟩)
        (.running f.body ⟨env', world⟩) := .running hclosed ⟨rfl, henv⟩
    exact (halike.steps k).outcome?_eq
  · intro moves todo hroute e he id hid
    exact ((Move.closed_ofStmts (hroute.allClosed hclosed)).reads e he).known_of_uses hid
  · intro σ callee k s s' todo hsteps
    exact Execution.route_of_steps hsteps

/-- A loop with a local of its own, which is given a value in each round and on one of two ways once
more: whatever the locals are at the start, the function returns after the same number of steps. -/
theorem parse_initializes_locals_loop :
    ∃ tokens p f,
      (tokensOf ("func f(n int) \x7b var i int; for i = 0; i < n; i = i + 1 \x7b var x int; " ++
        "if i \x7b x = g(x) \x7d; h(x) \x7d; return n \x7d\n")).result = .ok tokens ∧
      (Program.parse tokens).result = .ok p ∧ f ∈ p.functions ∧ f.locals.length = 2 ∧
      ((Execution.steps (.ofOracle fun _ _ => 5) 20
        (.running f.body ⟨fun id => if id = 0 then 2 else 7, ()⟩)).outcome?.bind
          fun outcome => outcome.1.toOption) = some (.returned 2) ∧
      ∀ k, (Execution.steps (.ofOracle fun _ _ => 5) k
          (.running f.body ⟨fun id => if id = 0 then 2 else 7, ()⟩)).outcome? =
        (Execution.steps (.ofOracle fun _ _ => 5) k
          (.running f.body ⟨fun _ => 2, ()⟩)).outcome? := by
  have hread : ((tokensOf
      ("func f(n int) \x7b var i int; for i = 0; i < n; i = i + 1 \x7b var x int; " ++
      "if i \x7b x = g(x) \x7d; h(x) \x7d; return n \x7d\n")).result.toOption.bind
      fun tokens => (Program.parse tokens).result.toOption).map (fun p => p.functions.map fun f =>
        (f.params.length, f.locals.length, (Execution.steps (.ofOracle fun _ _ => 5) 20
          (.running f.body ⟨fun id => if id = 0 then 2 else 7, ()⟩)).outcome?.bind
            fun outcome => outcome.1.toOption)) =
      some [(1, 2, some (.returned 2))] := by
    decide +kernel
  obtain ⟨p, hp, hfunctions⟩ := Option.map_eq_some_iff.1 hread
  obtain ⟨tokens, htokens, hparse⟩ := Option.bind_eq_some_iff.1 hp
  obtain ⟨f, hf, hdata⟩ := List.map_eq_singleton_iff.1 hfunctions
  simp only [Prod.mk.injEq] at hdata
  have hmem : f ∈ p.functions := hf ▸ List.mem_singleton_self f
  refine ⟨tokens, p, f, eq_ok_of_toOption htokens, eq_ok_of_toOption hparse, hmem, hdata.2.1,
    hdata.2.2, ?_⟩
  refine (parse_initializes_locals (eq_ok_of_toOption hparse) hmem).1 _ () _ _ fun id hid => ?_
  have hzero : id = 0 := by
    rw [hdata.1] at hid
    omega
  exact if_pos hzero

end MicroGo
