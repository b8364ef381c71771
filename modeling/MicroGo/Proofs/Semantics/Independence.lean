import MicroGo.Proofs.Program.WellFormed
import MicroGo.Proofs.Semantics.Evaluation

/-!
# A run depends on its arguments only

A function starts with whatever lies in the slots of its local variables.  Since each local is given
a value before it is used, none of this shows: two runs that start with the same arguments and the
same world go the same way and end alike, whatever the locals were at the start.

The proof compares two runs of one statement.  The stores agree on the world and on the variables
that are known where the statement stands (`Alike`), and they still do where it ends, with one more
variable known behind an assignment (`Same`).  Behind a return nothing is asked of the variables.
-/

namespace MicroGo

variable {σ α β : Type} {callee : Callee σ} {known known' : VarId → Prop}

/-! ## Expressions -/

mutual

/-- The value of a closed expression depends on the known variables only. -/
theorem Expr.eval_congr {env env' : Env} (henv : ∀ id, known id → env id = env' id) :
    ∀ e : Expr, e.Closed known → e.eval callee env = e.eval callee env'
  | .num _, _ => by rw [Expr.eval, Expr.eval]
  | .var id, h => by
      rw [Expr.Closed] at h
      rw [Expr.eval, Expr.eval, henv id h]
  | .binary op lhs rhs, h => by
      rw [Expr.Closed] at h
      rw [Expr.eval, Expr.eval, Expr.eval_congr henv lhs h.1, Expr.eval_congr henv rhs h.2]
  | .call name args, h => by
      rw [Expr.Closed] at h
      rw [Expr.eval, Expr.eval, Expr.evals_congr henv args h.2]

theorem Expr.evals_congr {env env' : Env} (henv : ∀ id, known id → env id = env' id) :
    ∀ es : List Expr, Expr.AllClosed known es → Expr.evals callee env es = Expr.evals callee env' es
  | [], _ => by rw [Expr.evals, Expr.evals]
  | e :: es, h => by
      rw [Expr.AllClosed] at h
      rw [Expr.evals, Expr.evals, Expr.eval_congr henv e h.1, Expr.evals_congr henv es h.2]

end

/-! ## Two runs -/

/-- The stores agree on the world and on the known variables. -/
structure Store.Alike (known : VarId → Prop) (s t : Store σ) : Prop where
  world : s.world = t.world
  env : ∀ id, known id → s.env id = t.env id

theorem Store.Alike.mono {s t : Store σ} (h : s.Alike known t)
    (hle : ∀ id, known' id → known id) : s.Alike known' t :=
  ⟨h.world, fun id hid => h.env id (hle id hid)⟩

theorem Store.Alike.assign {s t : Store σ} (h : s.Alike known t) (target : VarId) (v : Int64) :
    (s.assign target v).Alike (knownWith known (some target)) (t.assign target v) := by
  refine ⟨h.world, fun id hid => ?_⟩
  show Function.update s.env target v id = Function.update t.env target v id
  by_cases hne : id = target
  · subst hne
    rw [Function.update_self, Function.update_self]
  · rw [Function.update_of_ne hne, Function.update_of_ne hne]
    rcases hid with hid | hid
    · exact h.env id hid
    · exact absurd (Option.some.inj hid).symm hne

/-- The runs end alike: both with one value and stores that agree on what is known after it, or both
broken off for one reason in one world. -/
def EndAlike (after : α → VarId → Prop) :
    EStateM.Result Break (Store σ) α → EStateM.Result Break (Store σ) α → Prop
  | .ok a s, .ok b t => a = b ∧ s.Alike (after a) t
  | .error e s, .error e' t => e = e' ∧ s.world = t.world
  | _, _ => False

theorem EndAlike.cases {after : α → VarId → Prop} {r r' : EStateM.Result Break (Store σ) α}
    (h : EndAlike after r r') :
    (∃ a s t, r = .ok a s ∧ r' = .ok a t ∧ s.Alike (after a) t) ∨
      ∃ e s t, r = .error e s ∧ r' = .error e t ∧ s.world = t.world := by
  match r, r', h with
  | .ok a s, .ok _ t, ⟨rfl, halike⟩ => exact .inl ⟨a, s, t, rfl, rfl, halike⟩
  | .error e s, .error _ t, ⟨rfl, hworld⟩ => exact .inr ⟨e, s, t, rfl, rfl, hworld⟩

/-- **Runs of `x` from stores that are alike end alike.** -/
def Same (x : Exec σ α) (known : VarId → Prop) (after : α → VarId → Prop) : Prop :=
  ∀ s t : Store σ, s.Alike known t → EndAlike after (x s) (x t)

theorem same_pure (a : α) : Same (pure a : Exec σ α) known fun _ => known :=
  fun _ _ h => ⟨rfl, h⟩

theorem Same.bind {x : Exec σ α} {f : α → Exec σ β} {mid : α → VarId → Prop}
    {after : β → VarId → Prop} (hx : Same x known mid) (hf : ∀ a, Same (f a) (mid a) after) :
    Same (x >>= f) known after := by
  intro s t hst
  show EndAlike after (EStateM.bind x f s) (EStateM.bind x f t)
  unfold EStateM.bind
  rcases (hx s t hst).cases with ⟨a, s', t', hs, ht, halike⟩ | ⟨e, s', t', hs, ht, hworld⟩
  · rw [hs, ht]
    exact hf a s' t' halike
  · rw [hs, ht]
    exact ⟨rfl, hworld⟩

theorem Same.mono {x : Exec σ α} {after after' : α → VarId → Prop} (h : Same x known after)
    (hle : ∀ a id, after' a id → after a id) : Same x known after' := by
  intro s t hst
  rcases (h s t hst).cases with ⟨a, s', t', hs, ht, halike⟩ | ⟨e, s', t', hs, ht, hworld⟩
  · rw [hs, ht]
    exact ⟨rfl, halike.mono (hle a)⟩
  · rw [hs, ht]
    exact ⟨rfl, hworld⟩

/-- A closed expression has one value in stores that are alike. -/
theorem same_value {e : Expr} (h : e.Closed known) :
    Same (Exec.value callee e) known fun _ => known := by
  intro s t hst
  unfold Exec.value
  rw [Expr.eval_congr hst.env e h, hst.world]
  cases e.eval callee t.env t.world with
  | ok v w => exact ⟨rfl, rfl, hst.env⟩
  | error fault w => exact ⟨rfl, rfl⟩

theorem same_holds {cond : Option Expr} (h : ∀ e ∈ cond, e.Closed known) :
    Same (Exec.holds callee cond) known fun _ => known := by
  cases cond with
  | none => exact same_pure true
  | some e => exact (same_value (h e rfl)).bind fun _ => same_pure _

/-! ## Statements -/

/-- What is known where a statement ends, if `known` is known behind it. -/
def knownAt (known : VarId → Prop) : Completion → VarId → Prop
  | .normal => known
  | .returned _ => fun _ => False

theorem same_andThen {first next : Exec σ Completion} {mid : VarId → Prop}
    (hfirst : Same first known (knownAt mid)) (hnext : Same next mid (knownAt known')) :
    Same (Exec.andThen first next) known (knownAt known') := by
  refine hfirst.bind fun completion => ?_
  cases completion with
  | normal => exact hnext
  | returned v => exact fun s t hst => ⟨rfl, hst⟩

theorem same_repeatWhile {test : Exec σ Bool} {round : Exec σ Completion}
    (htest : Same test known fun _ => known) (hround : Same round known (knownAt known))
    (rounds : Nat) : Same (Exec.repeatWhile test round rounds) known (knownAt known) := by
  induction rounds with
  | zero => exact fun s t hst => ⟨rfl, hst.world⟩
  | succ rounds ih =>
      refine htest.bind fun b => ?_
      cases b with
      | true => exact same_andThen hround ih
      | false => exact fun s t hst => ⟨rfl, hst⟩

/-- Behind an assignment its variable is known. -/
theorem same_assign {target : VarId} {e : Expr} (h : e.Closed known) (rounds : Nat) :
    Same (Stmt.exec callee rounds (.assign target e)) known
      (knownAt (knownWith known (some target))) := by
  rw [Stmt.exec]
  exact (same_value h).bind fun v s t hst => ⟨rfl, hst.assign target v⟩

/-- What is known in front of a statement that assigns nothing is known behind it. -/
theorem Same.knownWith_none {x : Exec σ Completion} (h : Same x known (knownAt known)) :
    Same x known (knownAt (knownWith known none)) := by
  refine h.mono fun completion id hid => ?_
  cases completion with
  | normal => exact hid.resolve_right nofun
  | returned v => exact hid

/-- What is known behind a statement includes what is known in front of it. -/
theorem Same.forget {x : Exec σ Completion} (new : Option VarId)
    (h : Same x known (knownAt (knownWith known new))) : Same x known (knownAt known) := by
  refine h.mono fun completion id hid => ?_
  cases completion with
  | normal => exact .inl hid
  | returned v => exact hid

mutual

/-- Runs of a closed statement from stores that are alike end alike. -/
theorem same_exec (rounds n : Nat) : ∀ (s : Stmt) ⦃known : VarId → Prop⦄, s.Closed n known →
    Same (s.exec callee rounds) known (knownAt (knownWith known s.target?))
  | .expr value => by
      intro known h
      rw [Stmt.Closed] at h
      rw [Stmt.exec]
      refine Same.knownWith_none ((same_value h).bind fun _ => ?_)
      exact fun s t hst => ⟨rfl, hst⟩
  | .assign target value => by
      intro known h
      rw [Stmt.Closed] at h
      exact same_assign h.2 rounds
  | .ret value => by
      intro known h
      rw [Stmt.Closed] at h
      rw [Stmt.exec]
      refine (same_value h).bind fun v s t hst => ⟨rfl, hst.world, ?_⟩
      exact fun id hid => hid.elim
  | .block body => by
      intro known h
      rw [Stmt.Closed] at h
      rw [Stmt.exec]
      exact (same_execs rounds n body h).knownWith_none
  | .branch init cond body other => by
      intro known h
      rw [Stmt.Closed] at h
      obtain ⟨hinit, hcond, hbody, hother⟩ := h
      rw [Stmt.exec]
      refine Same.knownWith_none (Same.forget (init.bind Stmt.target?) ?_)
      refine same_andThen (same_optExec rounds n init hinit) ?_
      refine (same_holds (by simpa using hcond)).bind fun b => ?_
      cases b with
      | true => exact same_execs rounds n body hbody
      | false => exact (same_optExec rounds n other hother).forget _
  | .loop init cond post body => by
      intro known h
      rw [Stmt.Closed] at h
      obtain ⟨hinit, hcond, hbody, hpost⟩ := h
      rw [Stmt.exec]
      refine Same.knownWith_none (Same.forget (init.bind Stmt.target?) ?_)
      refine same_andThen (same_optExec rounds n init hinit) ?_
      -- a round forgets what it has assigned, so each round starts with the same known variables
      refine same_repeatWhile (same_holds hcond) ?_ rounds
      have hpost' := (same_optExec rounds n post hpost).forget _
      exact same_andThen (same_execs rounds n body hbody) hpost'

/-- Runs of closed statements from stores that are alike end alike. -/
theorem same_execs (rounds n : Nat) : ∀ (ss : List Stmt) ⦃known : VarId → Prop⦄,
    Stmt.AllClosed n known ss → Same (Stmt.execs callee rounds ss) known (knownAt known)
  | [] => by
      intro known h
      rw [Stmt.execs]
      exact fun s t hst => ⟨rfl, hst⟩
  | s :: ss => by
      intro known h
      rw [Stmt.AllClosed] at h
      rw [Stmt.execs]
      refine Same.forget s.target? ?_
      exact same_andThen (same_exec rounds n s h.1) (same_execs rounds n ss h.2)

theorem same_optExec (rounds n : Nat) : ∀ (s : Option Stmt) ⦃known : VarId → Prop⦄,
    Stmt.OptClosed n known s →
    Same (Stmt.optExec callee rounds s) known (knownAt (knownWith known (s.bind Stmt.target?)))
  | none => by
      intro known h
      rw [Stmt.optExec]
      refine Same.knownWith_none fun s t hst => ⟨rfl, hst⟩
  | some s => by
      intro known h
      rw [Stmt.OptClosed] at h
      rw [Stmt.optExec]
      exact same_exec rounds n s h

end

/-! ## Functions -/

/-- **The locals do not matter.**  Two runs of a well-formed function from one world with the same
arguments end alike. -/
theorem Function.WellFormed.run_alike {f : Function} (h : f.WellFormed) (callee : Callee σ)
    {args : List Int64} (hargs : args.length = f.params.length) (rounds : Nat)
    (locals locals' : Env) (world : σ) :
    EndAlike (fun _ _ => False)
      (f.run callee rounds ⟨Function.bind args locals, world⟩)
      (f.run callee rounds ⟨Function.bind args locals', world⟩) := by
  have hbody : Same (f.run callee rounds) (· < f.params.length) fun _ _ => False := by
    refine (same_execs rounds _ f.body h.closed).bind fun completion => ?_
    cases completion with
    | normal => exact fun s t hst => ⟨rfl, hst.world, fun _ hid => hid.elim⟩
    | returned v => exact fun s t hst => ⟨rfl, hst.world, fun _ hid => hid.elim⟩
  refine hbody _ _ ⟨rfl, fun id hid => ?_⟩
  have hlt : id < args.length := by
    rw [hargs]
    exact hid
  show args.getD id _ = args.getD id _
  simp only [List.getD, List.getElem?_eq_getElem hlt, Option.getD_some]

end MicroGo
