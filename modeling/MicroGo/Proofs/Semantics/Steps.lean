import Mathlib.Logic.Function.Iterate
import MicroGo.Proofs.Semantics.Evaluation

/-!
# Execution step by step

A bound on the rounds of each loop is no measure of time: a run that is cut off early and one that
goes on for long may lack an outcome for different reasons.  Here the statements are executed one
step after another.  An execution in progress is a list of statements that are still to be done,
together with the store, and one step looks at the first of these statements only.

What a step does is said apart from the values in the store (`Move`): it evaluates at most one
expression, gives the value to at most one variable, and goes on with statements that depend on the
value, or ends.  So a `Route` through the statements can be followed without any values, and each
execution follows one.

## Main statement

`ended_iff`: an execution ends, by a return, at the end of the statements or by a fault, if and only
if the bounded run ends in this way for some bound on the rounds.
-/

namespace MicroGo

variable {σ : Type} {callee : Callee σ}

/-! ## One step -/

/-- What one step does. -/
structure Move where
  /-- The expression that is evaluated. -/
  reads : Option Expr
  /-- The variable that the value is given to. -/
  writes : Option VarId
  /-- What is left to do behind the step, or how the statements end. -/
  next : Int64 → List Stmt ⊕ Completion

/-- The step from a list of statements.  Inner statements are put in front of the others. -/
def Move.ofStmts : List Stmt → Move
  | [] => ⟨none, none, fun _ => .inr .normal⟩
  | .expr value :: todo => ⟨some value, none, fun _ => .inl todo⟩
  | .assign target value :: todo => ⟨some value, some target, fun _ => .inl todo⟩
  | .ret value :: _ => ⟨some value, none, fun v => .inr (.returned v)⟩
  | .block body :: todo => ⟨none, none, fun _ => .inl (body ++ todo)⟩
  | .branch (some init) cond body other :: todo =>
      ⟨none, none, fun _ => .inl (init :: .branch none cond body other :: todo)⟩
  | .branch none cond body other :: todo =>
      ⟨some cond, none, fun v => .inl ((if v ≠ 0 then body else other.toList) ++ todo)⟩
  | .loop (some init) cond post body :: todo =>
      ⟨none, none, fun _ => .inl (init :: .loop none cond post body :: todo)⟩
  | .loop none cond post body :: todo =>
      ⟨cond, none, fun v => .inl
        (if cond = none ∨ v ≠ 0 then body ++ (post.toList ++ .loop none cond post body :: todo)
        else todo)⟩

/-- Where an execution is. -/
inductive Execution (σ : Type) where
  | running (todo : List Stmt) (store : Store σ)
  | ended (outcome : Except DivisionFault Completion) (world : σ)

/-- The outcome of an execution that has ended. -/
def Execution.outcome? : Execution σ → Option (Except DivisionFault Completion × σ)
  | .running _ _ => none
  | .ended outcome world => some (outcome, world)

/-- The value that is found in a step. -/
def Move.value (callee : Callee σ) (m : Move) (env : Env) : EStateM DivisionFault σ Int64 :=
  m.reads.elim (pure 0) (Expr.eval callee env)

/-- How the execution goes on with the value. -/
def Move.follow (m : Move) (v : Int64) (s : Store σ) : Execution σ :=
  (m.next v).elim (fun todo => .running todo (m.writes.elim s fun id => s.assign id v))
    fun completion => .ended (.ok completion) s.world

/-- One step.  An execution that has ended stays as it is. -/
def Execution.step (callee : Callee σ) : Execution σ → Execution σ
  | .running todo s =>
      match (Move.ofStmts todo).value callee s.env s.world with
      | .ok v world => (Move.ofStmts todo).follow v { s with world }
      | .error fault world => .ended (.error fault) world
  | .ended outcome world => .ended outcome world

/-- A number of steps. -/
def Execution.steps (callee : Callee σ) (n : Nat) (c : Execution σ) : Execution σ :=
  (Execution.step callee)^[n] c

/-- A way through statements, whatever the values are: the steps, and what is left to do behind
them. -/
inductive Route : List Stmt → List Move → List Stmt → Prop
  | nil (todo : List Stmt) : Route todo [] todo
  | cons {todo mid last : List Stmt} {moves : List Move} (v : Int64)
      (hnext : (Move.ofStmts todo).next v = .inl mid) (hrest : Route mid moves last) :
      Route todo (Move.ofStmts todo :: moves) last

namespace Execution

theorem steps_succ (n : Nat) (c : Execution σ) :
    steps callee (n + 1) c = steps callee n (step callee c) :=
  Function.iterate_succ_apply _ n c

theorem steps_add (n m : Nat) (c : Execution σ) :
    steps callee (n + m) c = steps callee n (steps callee m c) :=
  Function.iterate_add_apply _ n m c

theorem steps_ended (n : Nat) (outcome : Except DivisionFault Completion) (world : σ) :
    steps callee n (.ended outcome world) = .ended outcome world :=
  Function.iterate_fixed rfl n

/-- A step that leaves something to do is one of the steps of a route. -/
theorem next_of_step {todo todo' : List Stmt} {s s' : Store σ}
    (h : step callee (.running todo s) = .running todo' s') :
    ∃ v, (Move.ofStmts todo).next v = .inl todo' := by
  rw [step] at h
  cases hv : (Move.ofStmts todo).value callee s.env s.world with
  | error fault world =>
      rw [hv] at h
      cases h
  | ok v world =>
      rw [hv] at h
      refine ⟨v, ?_⟩
      cases hnext : (Move.ofStmts todo).next v with
      | inl mid =>
          simp only [Move.follow, hnext, Sum.elim_inl] at h
          cases h
          rfl
      | inr completion =>
          simp only [Move.follow, hnext, Sum.elim_inr] at h
          cases h

/-- **Each execution follows a route.** -/
theorem route_of_steps {n : Nat} {todo todo' : List Stmt} {s s' : Store σ}
    (h : steps callee n (.running todo s) = .running todo' s') :
    ∃ moves, moves.length = n ∧ Route todo moves todo' := by
  induction n generalizing todo s with
  | zero =>
      cases h
      exact ⟨[], rfl, .nil _⟩
  | succ n ih =>
      rw [steps_succ] at h
      cases hstep : step callee (.running todo s) with
      | ended outcome world =>
          rw [hstep, steps_ended] at h
          cases h
      | running mid t =>
          rw [hstep] at h
          obtain ⟨moves, hlength, hroute⟩ := ih h
          obtain ⟨v, hv⟩ := next_of_step hstep
          exact ⟨_ :: moves, by rw [List.length_cons, hlength], .cons v hv hroute⟩

end Execution

/-! ## Bounded runs and executions -/

namespace Execution

/-- The execution is still going on after each of the first `n` steps. -/
def Lasts (callee : Callee σ) (n : Nat) (c : Execution σ) : Prop :=
  ∀ k ≤ n, ∃ todo s, steps callee k c = .running todo s

/-- The execution does what the bounded run has found.  Behind a normal end it goes on with `rest`,
and where the bound was met it takes more steps than the bound allows. -/
def Leads (callee : Callee σ) (rounds : Nat) (rest : List Stmt) (c : Execution σ) :
    EStateM.Result Break (Store σ) Completion → Prop
  | .ok .normal t => ∃ n, steps callee n c = .running rest t
  | .ok (.returned v) t => ∃ n, steps callee n c = .ended (.ok (.returned v)) t.world
  | .error (.fault fault) t => ∃ n, steps callee n c = .ended (.error fault) t.world
  | .error .unfinished _ => Lasts callee rounds c

variable {rounds : Nat} {rest mid todo : List Stmt} {s : Store σ} {c : Execution σ}

theorem Lasts.mono {n : Nat} (h : Lasts callee n c) {k : Nat} (hk : k ≤ n) : Lasts callee k c :=
  fun _ hj => h _ (Nat.le_trans hj hk)

theorem Lasts.step {n : Nat} (h : Lasts callee n (step callee (.running todo s))) :
    Lasts callee (n + 1) (.running todo s) := by
  intro k hk
  cases k with
  | zero => exact ⟨todo, s, rfl⟩
  | succ k =>
      rw [steps_succ]
      exact h k (Nat.le_of_succ_le_succ hk)

/-- An execution that is going on later is going on now. -/
theorem Lasts.of_steps {n m : Nat} (hmid : steps callee m c = .running mid s)
    (h : Lasts callee n (.running mid s)) : Lasts callee n c := by
  intro k hk
  cases hc : steps callee k c with
  | running todo t => exact ⟨todo, t, rfl⟩
  | ended outcome world =>
      -- then it has still ended as many steps behind the later moment
      obtain ⟨todo, t, ht⟩ := h k hk
      rw [← hmid, ← steps_add, Nat.add_comm, steps_add, hc, steps_ended] at ht
      cases ht

theorem Leads.of_steps {n : Nat} {r : EStateM.Result Break (Store σ) Completion}
    (hmid : steps callee n c = .running mid s)
    (h : Leads callee rounds rest (.running mid s) r) : Leads callee rounds rest c r := by
  rcases r with ⟨_ | v, t⟩ | ⟨fault | _, t⟩
  · obtain ⟨m, hm⟩ := h
    exact ⟨m + n, by rw [steps_add, hmid, hm]⟩
  · obtain ⟨m, hm⟩ := h
    exact ⟨m + n, by rw [steps_add, hmid, hm]⟩
  · obtain ⟨m, hm⟩ := h
    exact ⟨m + n, by rw [steps_add, hmid, hm]⟩
  · exact Lasts.of_steps hmid h

/-- A step can be put in front, and then the execution lasts a step longer. -/
theorem Leads.step {r : EStateM.Result Break (Store σ) Completion}
    (h : Leads callee rounds rest (step callee (.running todo s)) r) :
    Leads callee (rounds + 1) rest (.running todo s) r := by
  rcases r with ⟨_ | v, t⟩ | ⟨fault | _, t⟩
  · obtain ⟨m, hm⟩ := h
    exact ⟨m + 1, by rw [steps_succ, hm]⟩
  · obtain ⟨m, hm⟩ := h
    exact ⟨m + 1, by rw [steps_succ, hm]⟩
  · obtain ⟨m, hm⟩ := h
    exact ⟨m + 1, by rw [steps_succ, hm]⟩
  · exact Lasts.step h

theorem Leads.mono {r : EStateM.Result Break (Store σ) Completion}
    (h : Leads callee rounds rest c r) {k : Nat} (hk : k ≤ rounds) : Leads callee k rest c r := by
  rcases r with ⟨_ | v, t⟩ | ⟨fault | _, t⟩
  · exact h
  · exact h
  · exact h
  · exact Lasts.mono h hk

theorem Leads.andThen {first next : Exec σ Completion}
    (hfirst : Leads callee rounds mid c (first s))
    (hnext : ∀ t, Leads callee rounds rest (.running mid t) (next t)) :
    Leads callee rounds rest c (Exec.andThen first next s) := by
  show Leads callee rounds rest c (EStateM.bind first _ s)
  unfold EStateM.bind
  cases hr : first s with
  | ok completion t =>
      rw [hr] at hfirst
      cases completion with
      | normal =>
          obtain ⟨n, hn⟩ := hfirst
          exact Leads.of_steps hn (hnext t)
      | returned v => exact hfirst
  | error why t =>
      rw [hr] at hfirst
      cases why with
      | fault fault => exact hfirst
      | unfinished => exact hfirst

/-- A step that evaluates an expression. -/
theorem Leads.value {e : Expr} {f : Int64 → Exec σ Completion}
    (hreads : (Move.ofStmts todo).reads = some e)
    (h : ∀ v t, Leads callee rounds rest ((Move.ofStmts todo).follow v t) (f v t)) :
    Leads callee (rounds + 1) rest (.running todo s) ((Exec.value callee e >>= f) s) := by
  refine Leads.step ?_
  show Leads callee rounds rest _ (EStateM.bind (Exec.value callee e) f s)
  rw [Execution.step]
  unfold EStateM.bind Exec.value Move.value
  rw [hreads, Option.elim_some]
  cases e.eval callee s.env s.world with
  | ok v world => exact h v _
  | error fault world => exact ⟨0, rfl⟩

/-- A condition decides between two runs by its value. -/
theorem holds_bind (cond : Expr) (x y : Exec σ Completion) :
    (do if ← Exec.holds callee (some cond) then x else y) =
      Exec.value callee cond >>= fun v => if v ≠ 0 then x else y := by
  rw [Exec.holds, bind_assoc]
  congr 1
  funext v
  by_cases hv : v = 0 <;> simp [hv]

/-! ### Statements

Each lemma is about a statement in front of others, and about the execution up to these.
-/

section Statements

variable {body : List Stmt} {other post : Option Stmt}

theorem leads_test {cond : Expr}
    (hbody : ∀ rest t, Leads callee rounds rest (.running (body ++ rest) t)
      (Stmt.execs callee rounds body t))
    (hother : ∀ rest t, Leads callee rounds rest (.running (other.toList ++ rest) t)
      (Stmt.optExec callee rounds other t)) (rest : List Stmt) (s : Store σ) :
    Leads callee rounds rest (.running (.branch none cond body other :: rest) s)
      ((do
        if ← Exec.holds callee (some cond) then Stmt.execs callee rounds body
        else Stmt.optExec callee rounds other : Exec σ Completion) s) := by
  rw [holds_bind]
  refine (Leads.value rfl fun v t => ?_).mono (Nat.le_succ rounds)
  show Leads callee rounds rest
    (.running ((if v ≠ 0 then body else other.toList) ++ rest) t) _
  by_cases hv : v ≠ 0
  · rw [if_pos hv, if_pos hv]
    exact hbody rest t
  · rw [if_neg hv, if_neg hv]
    exact hother rest t

/-- The induction is on the rounds that are left, and each of them takes a step at least. -/
theorem leads_repeat {cond : Option Expr}
    (hbody : ∀ rest t, Leads callee rounds rest (.running (body ++ rest) t)
      (Stmt.execs callee rounds body t))
    (hpost : ∀ rest t, Leads callee rounds rest (.running (post.toList ++ rest) t)
      (Stmt.optExec callee rounds post t)) (left : Nat) (hleft : left ≤ rounds)
    (rest : List Stmt) (s : Store σ) :
    Leads callee left rest (.running (.loop none cond post body :: rest) s)
      (Exec.repeatWhile (Exec.holds callee cond)
        (Exec.andThen (Stmt.execs callee rounds body) (Stmt.optExec callee rounds post)) left
        s) := by
  induction left generalizing s with
  | zero =>
      intro k hk
      obtain rfl : k = 0 := Nat.le_zero.1 hk
      exact ⟨_, _, rfl⟩
  | succ left ih =>
      have hround : ∀ t, Leads callee left rest
          (.running (body ++ (post.toList ++ .loop none cond post body :: rest)) t)
          (Exec.andThen
            (Exec.andThen (Stmt.execs callee rounds body) (Stmt.optExec callee rounds post))
            (Exec.repeatWhile (Exec.holds callee cond)
              (Exec.andThen (Stmt.execs callee rounds body) (Stmt.optExec callee rounds post))
              left) t) := by
        intro t
        have hle : left ≤ rounds := Nat.le_of_succ_le hleft
        refine Leads.andThen (Leads.andThen ((hbody _ t).mono hle) fun u => ?_) (ih hle)
        exact (hpost _ u).mono hle
      rw [Exec.repeatWhile]
      cases cond with
      | none => exact Leads.step (hround s)
      | some cond =>
          rw [holds_bind]
          refine Leads.value rfl fun v t => ?_
          show Leads callee left rest (.running (if some cond = none ∨ v ≠ 0 then
            body ++ (post.toList ++ .loop none (some cond) post body :: rest) else rest) t) _
          by_cases hv : v ≠ 0
          · rw [if_pos hv, if_pos (.inr hv)]
            exact hround t
          · rw [if_neg hv, if_neg (by simpa using hv)]
            exact ⟨0, rfl⟩

end Statements

mutual

theorem leads_stmt (callee : Callee σ) (rounds : Nat) :
    ∀ (stmt : Stmt) (rest : List Stmt) (s : Store σ),
    Leads callee rounds rest (.running (stmt :: rest) s) (stmt.exec callee rounds s)
  | .expr value, rest, s => by
      rw [Stmt.exec]
      refine Leads.mono (Leads.value rfl fun v t => ?_) (Nat.le_succ rounds)
      exact ⟨0, rfl⟩
  | .assign target value, rest, s => by
      rw [Stmt.exec]
      refine Leads.mono (Leads.value rfl fun v t => ?_) (Nat.le_succ rounds)
      exact ⟨0, rfl⟩
  | .ret value, rest, s => by
      rw [Stmt.exec]
      refine Leads.mono (Leads.value rfl fun v t => ?_) (Nat.le_succ rounds)
      exact ⟨0, rfl⟩
  | .block body, rest, s => by
      rw [Stmt.exec]
      exact (Leads.step (leads_stmts callee rounds body rest s)).mono (Nat.le_succ rounds)
  | .branch none cond body other, rest, s => by
      rw [Stmt.exec, Stmt.optExec]
      exact leads_test (leads_stmts callee rounds body) (leads_optStmt callee rounds other) rest s
  | .branch (some init) cond body other, rest, s => by
      rw [Stmt.exec, Stmt.optExec]
      refine Leads.mono (Leads.step ?_) (Nat.le_succ rounds)
      refine Leads.andThen (leads_stmt callee rounds init _ s) ?_
      exact leads_test (leads_stmts callee rounds body) (leads_optStmt callee rounds other) rest
  | .loop none cond post body, rest, s => by
      rw [Stmt.exec, Stmt.optExec]
      exact leads_repeat (leads_stmts callee rounds body) (leads_optStmt callee rounds post) rounds
        (Nat.le_refl rounds) rest s
  | .loop (some init) cond post body, rest, s => by
      rw [Stmt.exec, Stmt.optExec]
      refine Leads.mono (Leads.step ?_) (Nat.le_succ rounds)
      refine Leads.andThen (leads_stmt callee rounds init _ s) ?_
      exact leads_repeat (leads_stmts callee rounds body) (leads_optStmt callee rounds post) rounds
        (Nat.le_refl rounds) rest

theorem leads_stmts (callee : Callee σ) (rounds : Nat) : ∀ (stmts rest : List Stmt) (s : Store σ),
    Leads callee rounds rest (.running (stmts ++ rest) s) (Stmt.execs callee rounds stmts s)
  | [], rest, s => by
      rw [Stmt.execs]
      exact ⟨0, rfl⟩
  | stmt :: stmts, rest, s => by
      rw [Stmt.execs]
      exact Leads.andThen (leads_stmt callee rounds stmt _ s) (leads_stmts callee rounds stmts rest)

theorem leads_optStmt (callee : Callee σ) (rounds : Nat) :
    ∀ (stmt : Option Stmt) (rest : List Stmt) (s : Store σ),
    Leads callee rounds rest (.running (stmt.toList ++ rest) s)
      (Stmt.optExec callee rounds stmt s)
  | none, rest, s => by
      rw [Stmt.optExec]
      exact ⟨0, rfl⟩
  | some stmt, rest, s => by
      rw [Stmt.optExec]
      exact leads_stmt callee rounds stmt rest s

end

/-! ### Outcomes -/

/-- The way in which a bounded run ends, if the bound is not met. -/
def outcomeOf : EStateM.Result Break (Store σ) Completion →
    Option (Except DivisionFault Completion × σ)
  | .ok completion t => some (.ok completion, t.world)
  | .error (.fault fault) t => some (.error fault, t.world)
  | .error .unfinished _ => none

/-- Where the bounded run ends, the execution ends in the same way. -/
theorem steps_of_outcomeOf {rounds : Nat} {stmts : List Stmt} {s : Store σ}
    {outcome : Except DivisionFault Completion} {world : σ}
    (h : outcomeOf (Stmt.execs callee rounds stmts s) = some (outcome, world)) :
    ∃ n, steps callee n (.running stmts s) = .ended outcome world := by
  have hleads := leads_stmts callee rounds stmts [] s
  rw [List.append_nil] at hleads
  rcases hr : Stmt.execs callee rounds stmts s with ⟨_ | v, t⟩ | ⟨fault | _, t⟩ <;>
    rw [hr] at h hleads <;> cases h
  · -- behind the last statement one more step finds that nothing is left to do
    obtain ⟨n, hn⟩ := hleads
    exact ⟨1 + n, by rw [steps_add, hn]; rfl⟩
  · exact hleads
  · exact hleads

/-- **An execution ends if and only if the bounded run ends for some bound**, and then in the same
way and in the same world. -/
theorem ended_iff {stmts : List Stmt} {s : Store σ} {outcome : Except DivisionFault Completion}
    {world : σ} :
    (∃ n, steps callee n (.running stmts s) = .ended outcome world) ↔
      ∃ rounds, outcomeOf (Stmt.execs callee rounds stmts s) = some (outcome, world) := by
  constructor
  · rintro ⟨n, hn⟩
    refine ⟨n, ?_⟩
    cases ho : outcomeOf (Stmt.execs callee n stmts s) with
    | none =>
        -- the bound was met, so the execution is still going on after as many steps
        have hleads := leads_stmts callee n stmts [] s
        rw [List.append_nil] at hleads
        rcases hr : Stmt.execs callee n stmts s with ⟨_ | v, t⟩ | ⟨fault | _, t⟩ <;>
          rw [hr] at ho hleads <;> cases ho
        obtain ⟨todo, t, ht⟩ := hleads n (Nat.le_refl n)
        rw [hn] at ht
        cases ht
    | some found =>
        obtain ⟨outcome', world'⟩ := found
        obtain ⟨m, hm⟩ := steps_of_outcomeOf ho
        have hboth : steps callee (m + n) (.running stmts s) = .ended outcome world := by
          rw [steps_add, hn, steps_ended]
        rw [Nat.add_comm, steps_add, hm, steps_ended] at hboth
        cases hboth
        rfl
  · rintro ⟨rounds, h⟩
    exact steps_of_outcomeOf h

end Execution
end MicroGo
