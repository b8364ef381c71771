import MicroGo.Proofs.Scope.Lexical

/-!
# The rules that a sentence can break

A sentence can be refused only for a rule that is not part of the grammar.  There are eight such
rules, and `Complaint.IsStatic` lists the complaints about them.  That the grammar asks for
something else, that a condition is an assignment, or that the reading budget is used up is no
complaint about a sentence; nor is that no scope is open, since a function opens one before its
parameters.

Elaboration is followed from part to part (`Orderly`): it leaves as many scopes open as it finds,
and what it complains about is one of the eight rules.
-/

namespace MicroGo

/-- The complaint is about a rule that is not part of the grammar. -/
def Complaint.IsStatic : Complaint → Prop
  | emptyProgram => True
  | numeralOutOfRange _ => True
  | assignmentToNonVariable => True
  | undefinedVariable _ => True
  | redeclaredVariable _ => True
  | redeclaredFunction _ => True
  | tooManyParameters => True
  | tooManyArguments _ _ => True
  | foreignCharacter _ => False
  | expected _ _ => False
  | assignmentAsCondition => False
  | budgetExhausted => False
  | noOpenScope _ => False

namespace Grammar

variable {α β : Type}

/-! ## Expressions -/

mutual

theorem static_operand {scopes : Scopes} : ∀ {level : Nat} (t : Operand level) {c : Complaint},
    t.elaborate scopes = .error c → c.IsStatic
  | _, .unary signs operand, c, h => by
      rw [Operand.elaborate] at h
      rcases except_bind_eq_error.1 h with h | ⟨e, -, hend⟩
      · exact static_primary operand h
      · cases hend
  | _, .chain first rest, c, h => by
      rw [Operand.elaborate] at h
      rcases except_bind_eq_error.1 h with h | ⟨left, -, hrest⟩
      · exact static_operand first h
      · exact static_links rest hrest

theorem static_links {scopes : Scopes} : ∀ {level : Nat} (t : Links level) {left : Expr}
    {c : Complaint}, t.elaborate scopes left = .error c → c.IsStatic
  | _, .nil, left, c, h => by
      rw [Links.elaborate] at h
      cases h
  | _, .cons op operand rest, left, c, h => by
      rw [Links.elaborate] at h
      rcases except_bind_eq_error.1 h with h | ⟨right, -, hrest⟩
      · exact static_operand operand h
      · exact static_links rest hrest

theorem static_primary {scopes : Scopes} : ∀ (t : Primary) {c : Complaint},
    t.elaborate scopes = .error c → c.IsStatic
  | .num text, c, h => by
      rw [Primary.elaborate] at h
      split at h
      · cases h
      · cases h
        trivial
  | .name text, c, h => by
      rw [Primary.elaborate] at h
      split at h
      · cases h
      · cases h
        trivial
  | .call callee args, c, h => by
      rw [Primary.elaborate] at h
      rcases except_bind_eq_error.1 h with h | ⟨es, -, hend⟩
      · exact static_args args h
      · split at hend
        · cases hend
        · cases hend
          trivial
  | .paren inner, c, h => by
      rw [Primary.elaborate] at h
      exact static_operand inner h

theorem static_args {scopes : Scopes} : ∀ (t : Args) {c : Complaint},
    t.elaborate scopes = .error c → c.IsStatic
  | .close, c, h => by
      rw [Args.elaborate] at h
      cases h
  | .last arg, c, h => by
      rw [Args.elaborate] at h
      rcases except_bind_eq_error.1 h with h | ⟨e, -, hend⟩
      · exact static_operand arg h
      · cases hend
  | .next arg rest, c, h => by
      rw [Args.elaborate] at h
      rcases except_bind_eq_error.1 h with h | ⟨e, -, hmore⟩
      · exact static_operand arg h
      · rcases except_bind_eq_error.1 hmore with h | ⟨es, -, hend⟩
        · exact static_args rest h
        · cases hend

end

/-! ## Elaborations that are orderly -/

/-- **Elaboration where a scope is open** leaves as many scopes open as it finds, or breaks one of
the static rules. -/
structure Orderly (x : Elaboration α) : Prop where
  ok : ∀ names a names', 0 < names.scopes.length → x names = .ok (a, names') →
    names'.scopes.length = names.scopes.length
  error : ∀ names c, 0 < names.scopes.length → x names = .error c → c.IsStatic

theorem orderly_pure (a : α) : Orderly (pure a : Elaboration α) where
  ok := by
    rintro names _ _ - ⟨⟩
    rfl
  error := nofun

theorem orderly_throw {c : Complaint} (h : c.IsStatic) : Orderly (throw c : Elaboration α) where
  ok := nofun
  error := by
    rintro names _ - ⟨⟩
    exact h

theorem Orderly.bind {x : Elaboration α} {f : α → Elaboration β} (hx : Orderly x)
    (hf : ∀ a, Orderly (f a)) : Orderly (x >>= f) where
  ok := by
    intro names b names' hopen h
    obtain ⟨a, mid, hmid, hend⟩ := bind_eq_ok h
    have hlength := hx.ok names a mid hopen hmid
    rw [(hf a).ok mid b names' (hlength ▸ hopen) hend, hlength]
  error := by
    intro names c hopen h
    rcases except_bind_eq_error.1 h with h | ⟨⟨a, mid⟩, hmid, hend⟩
    · exact hx.error names c hopen h
    · exact (hf a).error mid c (hx.ok names a mid hopen hmid ▸ hopen) hend

theorem Orderly.map {x : Elaboration α} (hx : Orderly x) (f : α → β) :
    Orderly (do return f (← x)) :=
  hx.bind fun a => orderly_pure (f a)

theorem orderly_lookup {x : Scopes → Except Complaint α}
    (h : ∀ scopes c, x scopes = .error c → c.IsStatic) : Orderly (lookup x) where
  ok := by
    intro names a names' _ hr
    obtain rfl : names' = names := (lookup_eq_ok hr).2
    rfl
  error := fun names c _ hr => h names.scopes c (lookup_eq_error hr)

theorem orderly_resolve (t : Expression) : Orderly t.resolve :=
  orderly_lookup fun _ _ h => static_operand t h

/-- A declaration finds a scope, so it can only find its name in it. -/
theorem orderly_declare (name : String) : Orderly (declare name) where
  ok := by
    intro names id names' hopen h
    rw [declare_eq name hopen] at h
    split at h
    · cases h
    · cases h
      exact length_scopes_step_declare name hopen
  error := by
    intro names c hopen h
    rw [declare_eq name hopen] at h
    split at h
    · cases h
      trivial
    · cases h

theorem inScope_eq_error {x : Elaboration α} {names : Names} {c : Complaint}
    (h : inScope x names = .error c) : x names.enter = .error c := by
  unfold inScope at h
  cases hx : x names.enter with
  | error c' =>
      rw [hx] at h
      cases h
      rfl
  | ok r =>
      rw [hx] at h
      cases h

/-- Elaboration in a scope of its own finds that scope open and gives it up. -/
theorem Orderly.inScope {x : Elaboration α} (hx : Orderly x) : Orderly (inScope x) where
  ok := by
    intro names a names' _ h
    obtain ⟨mid, hmid, hleave⟩ := inScope_eq_ok h
    obtain rfl : names' = mid.leave := hleave
    have hlength := hx.ok names.enter a mid (Nat.succ_pos _) hmid
    show mid.scopes.tail.length = _
    rw [List.length_tail, hlength]
    rfl
  error := fun names c _ h => hx.error names.enter c (Nat.succ_pos _) (inScope_eq_error h)

/-! ## Statements -/

theorem orderly_simple (t : Simple) : Orderly t.elaborate := by
  refine (orderly_resolve t.left).bind fun left => ?_
  cases t.right with
  | none => exact orderly_pure _
  | some right =>
      cases left with
      | var id => exact (orderly_resolve right).map _
      | num value => exact orderly_throw trivial
      | binary op l r => exact orderly_throw trivial
      | call callee args => exact orderly_throw trivial

theorem orderly_firstValue (value : Option Expression) : Orderly (firstValue value) := by
  cases value with
  | none => exact orderly_pure _
  | some value => exact orderly_resolve value

theorem orderly_local (t : Local) : Orderly t.elaborate := by
  cases t with
  | typed name value =>
      exact (orderly_firstValue value).bind fun e => (orderly_declare name).map _
  | inferred name value =>
      exact (orderly_resolve value).bind fun e => (orderly_declare name).map _

theorem orderly_optionally {f : α → Elaboration β} (h : ∀ a, Orderly (f a)) (o : Option α) :
    Orderly (optionally f o) := by
  cases o with
  | none => exact orderly_pure _
  | some a => exact (h a).map some

theorem orderly_loopHead (t : LoopHead) : Orderly t.elaborate := by
  cases t with
  | forever => exact orderly_pure _
  | «while» cond => exact (orderly_resolve cond).map _
  | clauses init cond post =>
      refine (orderly_optionally orderly_simple init).bind fun i => ?_
      refine (orderly_optionally orderly_resolve cond).bind fun c => ?_
      exact (orderly_optionally orderly_simple post).map _

mutual

theorem orderly_statement : ∀ t : Statement, Orderly t.elaborate
  | .ret value => by
      rw [Statement.elaborate]
      exact (orderly_resolve value).map _
  | .declare decl => by
      rw [Statement.elaborate]
      exact orderly_local decl
  | .branch cases => by
      rw [Statement.elaborate]
      exact orderly_conditional cases
  | .loop head body => by
      rw [Statement.elaborate]
      refine ((orderly_loopHead head).bind fun parts => ?_).inScope
      exact (orderly_body body).inScope.map _
  | .block body => by
      rw [Statement.elaborate]
      exact (orderly_body body).inScope.map _
  | .simple stmt => by
      rw [Statement.elaborate]
      exact orderly_simple stmt

theorem orderly_conditional : ∀ t : Conditional, Orderly t.elaborate
  | .mk init cond body other => by
      rw [Conditional.elaborate]
      refine ((orderly_optionally orderly_simple init).bind fun i => ?_).inScope
      refine (orderly_resolve cond).bind fun c => ?_
      refine (orderly_body body).inScope.bind fun b => ?_
      exact (orderly_otherwise other).map _

theorem orderly_otherwise : ∀ t : Otherwise, Orderly t.elaborate
  | .none => by
      rw [Otherwise.elaborate]
      exact orderly_pure _
  | .elseIf cases => by
      rw [Otherwise.elaborate]
      exact (orderly_conditional cases).map some
  | .elseBlock body => by
      rw [Otherwise.elaborate]
      exact (orderly_body body).inScope.map _

theorem orderly_body : ∀ t : Body, Orderly t.elaborate
  | .close => by
      rw [Body.elaborate]
      exact orderly_pure _
  | .skip rest => by
      rw [Body.elaborate]
      exact orderly_body rest
  | .last stmt => by
      rw [Body.elaborate]
      exact (orderly_statement stmt).map _
  | .next stmt rest => by
      rw [Body.elaborate]
      exact (orderly_statement stmt).bind fun s => (orderly_body rest).map _

end

/-! ## Functions and programs -/

theorem orderly_parameter (count : Nat) (name : String) : Orderly (parameter count name) := by
  unfold parameter
  split
  · exact (orderly_declare name).map _
  · exact orderly_throw trivial

theorem orderly_params (t : Params) (count : Nat) : Orderly (t.elaborate count) := by
  induction t generalizing count with
  | close => exact orderly_pure _
  | last name => exact orderly_parameter count name
  | next name rest ih => exact (orderly_parameter count name).bind fun n => ih n

theorem static_function {t : Function} {names : Names} {c : Complaint}
    (h : t.elaborate names = .error c) : c.IsStatic := by
  have hinside : Orderly (t.params.elaborate 0 >>= fun count => do
      return (count, ← t.body.elaborate)) :=
    (orderly_params t.params 0).bind fun count => (orderly_body t.body).map _
  rcases except_bind_eq_error.1 h with h | ⟨r, -, hend⟩
  · exact hinside.error (Names.enter _) c (Nat.succ_pos _) (inScope_eq_error h)
  · cases hend

theorem static_functions {ts : List Function} {done : List MicroGo.Function} {names : Names}
    {c : Complaint} (h : functionsElaborate done ts names = .error c) : c.IsStatic := by
  induction ts generalizing done names with
  | nil => cases h
  | cons t ts ih =>
      rcases except_bind_eq_error.1 h with h | ⟨⟨g, mid⟩, -, hrest⟩
      · exact static_function h
      · dsimp only at hrest
        split at hrest
        · cases hrest
          trivial
        · exact ih hrest

/-- **A sentence breaks static rules only.** -/
theorem static_program {t : Program} {c : Complaint} (h : t.elaborate = .error c) :
    c.IsStatic := by
  rcases except_bind_eq_error.1 h with h | ⟨r, -, hend⟩
  · exact static_functions h
  · cases hend

end Grammar
end MicroGo
