import MicroGo.Proofs.Grammar.Agreement
import MicroGo.Proofs.Program.WellFormed

/-!
# What a sentence means is well formed

A sentence that breaks no rule stands for a well-formed program.  The argument follows the names:
an identifier is replaced by a variable that an open scope knows, an open scope knows variables of
the current function only, and each of them was given a value where it was declared.

## How names change

Elaboration of a statement may add to the innermost scope and to the declared variables, and leaves
the outer scopes alone (`Grows`).  A scope that was opened is closed again, so what stands behind an
inner block knows what was known in front of it.
-/

namespace MicroGo

theorem except_bind_eq_ok {ε α β : Type} {x : Except ε α} {f : α → Except ε β} {b : β}
    (h : (x >>= f) = .ok b) : ∃ a, x = .ok a ∧ f a = .ok b := by
  cases x with
  | error c => cases h
  | ok a => exact ⟨a, rfl, h⟩

theorem except_bind_eq_error {ε α β : Type} {x : Except ε α} {f : α → Except ε β} {e : ε} :
    (x >>= f) = .error e ↔ x = .error e ∨ ∃ a, x = .ok a ∧ f a = .error e := by
  cases x with
  | error e' =>
      constructor
      · intro h
        cases h
        exact .inl rfl
      · rintro (h | ⟨a, ha, -⟩)
        · cases h
          rfl
        · cases ha
  | ok a =>
      constructor
      · exact fun h => .inr ⟨a, rfl, h⟩
      · rintro (h | ⟨a', ha, h⟩)
        · cases h
        · cases ha
          exact h

namespace Grammar

variable {α β : Type} {names names' : Names} {known : VarId → Prop}

/-! ## Elaborations that succeed -/

theorem bind_eq_ok {x : Elaboration α} {f : α → Elaboration β} {r : β × Names}
    (h : (x >>= f) names = .ok r) : ∃ a mid, x names = .ok (a, mid) ∧ f a mid = .ok r := by
  obtain ⟨⟨a, mid⟩, hx, hf⟩ := except_bind_eq_ok h
  exact ⟨a, mid, hx, hf⟩

theorem pure_eq_ok {a : α} {r : α × Names} (h : (pure a : Elaboration α) names = .ok r) :
    r = (a, names) :=
  (Except.ok.inj h).symm

theorem lookup_eq_ok {x : Scopes → Except Complaint α} {r : α × Names}
    (h : lookup x names = .ok r) : x names.scopes = .ok r.1 ∧ r.2 = names := by
  unfold lookup at h
  cases hx : x names.scopes with
  | error c =>
      rw [hx] at h
      cases h
  | ok a =>
      rw [hx] at h
      cases h
      exact ⟨rfl, rfl⟩

theorem inScope_eq_ok {x : Elaboration α} {r : α × Names} (h : inScope x names = .ok r) :
    ∃ mid, x names.enter = .ok (r.1, mid) ∧ r.2 = mid.leave := by
  unfold inScope at h
  cases hx : x names.enter with
  | error c =>
      rw [hx] at h
      cases h
  | ok r' =>
      rw [hx] at h
      cases h
      exact ⟨r'.2, rfl, rfl⟩

/-! ## Scopes know variables -/

/-- Every variable that an open scope knows is among the known ones. -/
def Knows (scopes : Scopes) (known : VarId → Prop) : Prop :=
  ∀ x id, scopes.find? x = some id → known id

theorem Knows.with {scopes : Scopes} (h : Knows scopes known) (new : Option VarId) :
    Knows scopes (knownWith known new) :=
  fun x id hid => .inl (h x id hid)

theorem find?_enter (names : Names) (x : String) :
    names.enter.scopes.find? x = names.scopes.find? x := rfl

/-- How names change in a part of the text that opens no scope for what follows. -/
structure Grows (names names' : Names) : Prop where
  tail : names'.scopes.tail = names.scopes.tail
  mono : names.declared.length ≤ names'.declared.length
  valid : Knows names.scopes (· < names.declared.length) →
    Knows names'.scopes (· < names'.declared.length)

theorem Grows.refl (names : Names) : Grows names names :=
  ⟨rfl, Nat.le_refl _, id⟩

theorem Grows.trans {mid : Names} (h : Grows names mid) (h' : Grows mid names') :
    Grows names names' :=
  ⟨h'.tail.trans h.tail, h.mono.trans h'.mono, fun hv => h'.valid (h.valid hv)⟩

theorem Grows.scopes_leave (h : Grows names.enter names') : names'.leave.scopes = names.scopes :=
  h.tail

/-- Behind a scope, all that is new is that more variables are declared. -/
theorem Grows.leave (h : Grows names.enter names') : Grows names names'.leave where
  tail := by rw [h.scopes_leave]
  mono := h.mono
  valid hv := by
    rw [h.scopes_leave]
    exact fun x id hid => Nat.lt_of_lt_of_le (hv x id hid) h.mono

/-- A declaration gives the next number, in the innermost scope. -/
theorem declare_eq_ok {name : String} {id : VarId} (h : declare name names = .ok (id, names')) :
    id = names.declared.length ∧ names'.declared = names.declared ++ [⟨name, .int⟩] ∧
      names'.scopes.tail = names.scopes.tail ∧
      ∀ known, Knows names.scopes known → Knows names'.scopes (knownWith known (some id)) := by
  cases hscopes : names.scopes with
  | nil =>
      rw [declare_of_nil name hscopes] at h
      cases h
  | cons scope outer =>
      rw [declare_of_cons name hscopes] at h
      by_cases hknows : scope.knows name
      · rw [if_pos hknows] at h
        cases h
      · rw [if_neg hknows] at h
        cases h
        refine ⟨rfl, rfl, rfl, fun known hknown x id hid => ?_⟩
        by_cases hx : x = name
        · subst hx
          have hself : Scopes.find? (((x, names.declared.length) :: scope) :: outer) x =
              some names.declared.length := by
            simp [Scopes.find?]
          rw [hself] at hid
          exact .inr hid
        · have hother : Scopes.find? (((name, names.declared.length) :: scope) :: outer) x =
              Scopes.find? (scope :: outer) x := by
            have hne : (x == name) = false := beq_false_of_ne hx
            simp [Scopes.find?, List.findSome?_cons, List.lookup_cons, hne]
          rw [hother] at hid
          exact .inl (hknown x id hid)

theorem grows_declare {name : String} {id : VarId} (h : declare name names = .ok (id, names')) :
    Grows names names' := by
  obtain ⟨hid, hdeclared, htail, hknows⟩ := declare_eq_ok h
  refine ⟨htail, by simp [hdeclared], fun hv x id' hx => ?_⟩
  rw [hdeclared, List.length_append]
  rcases hknows _ hv x id' hx with hlt | heq
  · exact Nat.lt_of_lt_of_le hlt (Nat.le_add_right _ _)
  · rw [Option.some.injEq] at heq
    rw [← heq, hid]
    exact Nat.lt_succ_self _

/-! ## Expressions -/

/-- An operator joins closed expressions to a closed one. -/
theorem Operator.closed {level : Nat} (op : Operator level) {l r : Expr} (hl : l.Closed known)
    (hr : r.Closed known) : (op.combine l r).Closed known := by
  have htables : ∀ level, ∀ entry ∈ operators level, (entry.2 l r).Closed known := by
    intro level
    match level with
    | 0 => simp [operators, Parser.products, Expr.Closed, hl, hr]
    | 1 => simp [operators, Parser.sums, Expr.Closed, hl, hr]
    | 2 => simp [operators, Parser.comparisons, Expr.Closed, hl, hr]
    | _ + 3 => simp [operators]
  obtain ⟨before, after, hsplit, -⟩ := List.lookup_eq_some_iff.1 op.listed
  exact htables level (op.text, op.combine) (by simp [hsplit])

theorem closed_repeat_negate {e : Expr} (h : e.Closed known) (n : Nat) :
    (Nat.repeat Parser.negate n e).Closed known := by
  induction n with
  | zero => exact h
  | succ n ih =>
      rw [Nat.repeat, Parser.negate, Expr.Closed, Expr.Closed]
      exact ⟨trivial, ih⟩

mutual

theorem closed_operand {scopes : Scopes} (hs : Knows scopes known) :
    ∀ {level : Nat} (t : Operand level) {e : Expr}, t.elaborate scopes = .ok e → e.Closed known
  | _, .unary signs operand, e, h => by
      rw [Operand.elaborate] at h
      obtain ⟨e', he', hend⟩ := except_bind_eq_ok h
      cases hend
      exact closed_repeat_negate (closed_primary hs operand he') _
  | _, .chain first rest, e, h => by
      rw [Operand.elaborate] at h
      obtain ⟨left, hleft, hrest⟩ := except_bind_eq_ok h
      exact closed_links hs rest (closed_operand hs first hleft) hrest

theorem closed_links {scopes : Scopes} (hs : Knows scopes known) :
    ∀ {level : Nat} (t : Links level) {left e : Expr}, left.Closed known →
      t.elaborate scopes left = .ok e → e.Closed known
  | _, .nil, left, e, hleft, h => by
      rw [Links.elaborate] at h
      cases h
      exact hleft
  | _, .cons op operand rest, left, e, hleft, h => by
      rw [Links.elaborate] at h
      obtain ⟨right, hright, hrest⟩ := except_bind_eq_ok h
      exact closed_links hs rest (op.closed hleft (closed_operand hs operand hright)) hrest

theorem closed_primary {scopes : Scopes} (hs : Knows scopes known) :
    ∀ (t : Primary) {e : Expr}, t.elaborate scopes = .ok e → e.Closed known
  | .num text, e, h => by
      rw [Primary.elaborate] at h
      split at h
      · cases h
        rw [Expr.Closed]
        trivial
      · cases h
  | .name name, e, h => by
      rw [Primary.elaborate] at h
      split at h
      · next id hid =>
          cases h
          rw [Expr.Closed]
          exact hs name id hid
      · cases h
  | .call callee args, e, h => by
      rw [Primary.elaborate] at h
      obtain ⟨es, hes, hend⟩ := except_bind_eq_ok h
      split at hend
      · next hlength =>
          cases hend
          rw [Expr.Closed]
          exact ⟨hlength, closed_args hs args hes⟩
      · cases hend
  | .paren inner, e, h => by
      rw [Primary.elaborate] at h
      exact closed_operand hs inner h

theorem closed_args {scopes : Scopes} (hs : Knows scopes known) :
    ∀ (t : Args) {es : List Expr}, t.elaborate scopes = .ok es → Expr.AllClosed known es
  | .close, es, h => by
      rw [Args.elaborate] at h
      cases h
      rw [Expr.AllClosed]
      trivial
  | .last arg, es, h => by
      rw [Args.elaborate] at h
      obtain ⟨e, he, hend⟩ := except_bind_eq_ok h
      cases hend
      rw [Expr.AllClosed, Expr.AllClosed]
      exact ⟨closed_operand hs arg he, trivial⟩
  | .next arg rest, es, h => by
      rw [Args.elaborate] at h
      obtain ⟨e, he, hmore⟩ := except_bind_eq_ok h
      obtain ⟨es', hes', hend⟩ := except_bind_eq_ok hmore
      cases hend
      rw [Expr.AllClosed]
      exact ⟨closed_operand hs arg he, closed_args hs rest hes'⟩

end

/-- An expression is closed over what the open scopes know, and changes no names. -/
theorem closed_resolve {t : Expression} {r : Expr × Names} (h : t.resolve names = .ok r) :
    r.2 = names ∧ ∀ known, Knows names.scopes known → r.1.Closed known := by
  obtain ⟨he, hnames⟩ := lookup_eq_ok h
  exact ⟨hnames, fun known hs => closed_operand hs t he⟩

/-! ## Statements -/

/-- The open scopes know declared variables only. -/
abbrev Names.Valid (names : Names) : Prop :=
  Knows names.scopes (· < names.declared.length)

/-- What elaboration makes of a statement, from the names before it and the names behind it. -/
structure Made (names names' : Names) (s : Stmt) : Prop where
  grows : Grows names names'
  knows : ∀ known, Knows names.scopes known → Knows names'.scopes (knownWith known s.target?)
  closed : names.Valid → ∀ n known, names'.declared.length ≤ n → Knows names.scopes known →
    s.Closed n known

theorem made_simple {t : Simple} {r : Stmt × Names} (h : t.elaborate names = .ok r) :
    r.2 = names ∧ Made names names r.1 := by
  rw [Simple.elaborate] at h
  obtain ⟨left, mid, hleft, hrest⟩ := bind_eq_ok h
  obtain ⟨rfl, hclosed⟩ := closed_resolve hleft
  cases hright : t.right with
  | none =>
      simp only [hright] at hrest
      obtain rfl := pure_eq_ok hrest
      refine ⟨rfl, Grows.refl _, fun known hs => hs.with _, fun _ n known _ hs => ?_⟩
      rw [Stmt.Closed]
      exact hclosed known hs
  | some right =>
      simp only [hright] at hrest
      cases left with
      | var id =>
          obtain ⟨e, mid, he, hend⟩ := bind_eq_ok hrest
          obtain ⟨rfl, hvalue⟩ := closed_resolve he
          obtain rfl := pure_eq_ok hend
          refine ⟨rfl, Grows.refl _, fun known hs => hs.with _, fun hv n known hn hs => ?_⟩
          have hid := hclosed _ hv
          rw [Expr.Closed] at hid
          rw [Stmt.Closed]
          exact ⟨Nat.lt_of_lt_of_le hid hn, hvalue known hs⟩
      | num value => cases hrest
      | binary op l r => cases hrest
      | call callee args => cases hrest

theorem closed_firstValue {value : Option Expression} {r : Expr × Names}
    (h : firstValue value names = .ok r) :
    r.2 = names ∧ ∀ known, Knows names.scopes known → r.1.Closed known := by
  cases value with
  | none =>
      obtain rfl := pure_eq_ok h
      refine ⟨rfl, fun known _ => ?_⟩
      rw [Expr.Closed]
      trivial
  | some value => exact closed_resolve h

/-- A declaration gives its variable a value that is closed over what was known before. -/
theorem made_declare {name : String} {value : Expr} {r : Stmt × Names}
    (hvalue : ∀ known, Knows names.scopes known → value.Closed known)
    (h : (declare name >>= fun id => pure (Stmt.assign id value)) names = .ok r) :
    Made names r.2 r.1 := by
  obtain ⟨id, mid, hdeclare, hend⟩ := bind_eq_ok h
  obtain rfl := pure_eq_ok hend
  obtain ⟨hid, hdeclared, -, hknows⟩ := declare_eq_ok hdeclare
  refine ⟨grows_declare hdeclare, hknows, fun _ n known hn hs => ?_⟩
  have hlength := congrArg List.length hdeclared
  rw [List.length_append, List.length_singleton] at hlength
  have hlt : id < n := by
    rw [hid]
    exact Nat.lt_of_lt_of_le (Nat.lt_succ_self _) (hlength.symm.le.trans hn)
  rw [Stmt.Closed]
  exact ⟨hlt, hvalue known hs⟩

theorem made_local {t : Local} {r : Stmt × Names} (h : t.elaborate names = .ok r) :
    Made names r.2 r.1 := by
  cases t with
  | typed name value =>
      obtain ⟨e, mid, he, hrest⟩ := bind_eq_ok h
      obtain ⟨rfl, hclosed⟩ := closed_firstValue he
      exact made_declare hclosed hrest
  | inferred name value =>
      obtain ⟨e, mid, he, hrest⟩ := bind_eq_ok h
      obtain ⟨rfl, hclosed⟩ := closed_resolve he
      exact made_declare hclosed hrest

theorem optionally_eq_ok {f : α → Elaboration β} {o : Option α} {r : Option β × Names}
    (h : optionally f o names = .ok r) :
    (o = none ∧ r = (none, names)) ∨
      ∃ a b, o = some a ∧ r.1 = some b ∧ f a names = .ok (b, r.2) := by
  cases o with
  | none => exact .inl ⟨rfl, pure_eq_ok h⟩
  | some a =>
      obtain ⟨b, mid, hf, hend⟩ := bind_eq_ok h
      obtain rfl := pure_eq_ok hend
      exact .inr ⟨a, b, rfl, rfl, hf⟩

/-- A simple statement that may be missing. -/
theorem made_optSimple {o : Option Simple} {r : Option Stmt × Names}
    (h : optionally Simple.elaborate o names = .ok r) :
    r.2 = names ∧ (names.Valid → ∀ n known, names.declared.length ≤ n →
      Knows names.scopes known → Stmt.OptClosed n known r.1) := by
  rcases optionally_eq_ok h with ⟨-, rfl⟩ | ⟨t, s, -, hs, ht⟩
  · refine ⟨rfl, fun _ n known _ _ => ?_⟩
    rw [Stmt.OptClosed]
    trivial
  · obtain ⟨hnames, hmade⟩ := made_simple ht
    refine ⟨hnames, fun hv n known hn hknown => ?_⟩
    rw [hs, Stmt.OptClosed]
    exact hmade.closed hv n known hn hknown

/-- An expression that may be missing. -/
theorem closed_optResolve {o : Option Expression} {r : Option Expr × Names}
    (h : optionally Expression.resolve o names = .ok r) :
    r.2 = names ∧ ∀ e ∈ r.1, ∀ known, Knows names.scopes known → e.Closed known := by
  rcases optionally_eq_ok h with ⟨-, rfl⟩ | ⟨t, e, -, he, ht⟩
  · exact ⟨rfl, by simp⟩
  · obtain ⟨hnames, hclosed⟩ := closed_resolve ht
    rw [he]
    exact ⟨hnames, by simpa using hclosed⟩

/-- The parts of a loop's head. -/
theorem made_loopHead {t : LoopHead} {r : (Option Stmt × Option Expr × Option Stmt) × Names}
    (h : t.elaborate names = .ok r) :
    r.2 = names ∧ (names.Valid → ∀ n known, names.declared.length ≤ n →
      Knows names.scopes known → Stmt.OptClosed n known r.1.1 ∧
        (∀ e ∈ r.1.2.1, e.Closed (knownWith known (r.1.1.bind Stmt.target?))) ∧
        Stmt.OptClosed n (knownWith known (r.1.1.bind Stmt.target?)) r.1.2.2) := by
  cases t with
  | forever =>
      obtain rfl := pure_eq_ok h
      simp [Stmt.OptClosed]
  | «while» cond =>
      obtain ⟨e, mid, he, hend⟩ := bind_eq_ok h
      obtain ⟨rfl, hclosed⟩ := closed_resolve he
      obtain rfl := pure_eq_ok hend
      refine ⟨rfl, fun _ n known _ hs => ?_⟩
      simp only [Stmt.OptClosed, Option.mem_def, Option.some.injEq, forall_eq', true_and, and_true]
      exact hclosed _ (hs.with _)
  | clauses init cond post =>
      obtain ⟨i, mid, hi, hcond⟩ := bind_eq_ok h
      obtain ⟨rfl, hinit⟩ := made_optSimple hi
      obtain ⟨c, mid', hc, hthen⟩ := bind_eq_ok hcond
      obtain ⟨rfl, hclosed⟩ := closed_optResolve hc
      obtain ⟨p, mid', hp, hend⟩ := bind_eq_ok hthen
      obtain ⟨rfl, hpost⟩ := made_optSimple hp
      obtain rfl := pure_eq_ok hend
      refine ⟨rfl, fun hv n known hn hs => ⟨hinit hv n known hn hs, fun e he => ?_, ?_⟩⟩
      · exact hclosed e he _ (hs.with _)
      · exact hpost hv n _ hn (hs.with _)

/-- What elaboration makes of the statements of a block. -/
structure AllMade (names names' : Names) (ss : List Stmt) : Prop where
  grows : Grows names names'
  closed : names.Valid → ∀ n known, names'.declared.length ≤ n → Knows names.scopes known →
    Stmt.AllClosed n known ss

/-- What elaboration makes of a statement that may be missing. -/
structure OptMade (names names' : Names) (s : Option Stmt) : Prop where
  grows : Grows names names'
  closed : names.Valid → ∀ n known, names'.declared.length ≤ n → Knows names.scopes known →
    Stmt.OptClosed n known s

/-- A statement that opens a scope for all of itself assigns nothing outside. -/
theorem Made.of_inScope {s : Stmt} (hgrows : Grows names.enter names') (htarget : s.target? = none)
    (hclosed : names.Valid → ∀ n known, names'.declared.length ≤ n → Knows names.scopes known →
      s.Closed n known) : Made names names'.leave s where
  grows := hgrows.leave
  knows known hs := by
    rw [hgrows.scopes_leave, htarget]
    exact hs.with none
  closed := hclosed

mutual

/-- A statement that breaks no rule is closed over what is known where it stands. -/
theorem made_statement : ∀ (t : Statement) ⦃names : Names⦄ ⦃r : Stmt × Names⦄,
    t.elaborate names = .ok r → Made names r.2 r.1
  | .ret value => by
      intro names r h
      rw [Statement.elaborate] at h
      obtain ⟨e, mid, he, hend⟩ := bind_eq_ok h
      obtain ⟨rfl, hclosed⟩ := closed_resolve he
      obtain rfl := pure_eq_ok hend
      refine ⟨Grows.refl _, fun known hs => hs.with _, fun _ n known _ hs => ?_⟩
      rw [Stmt.Closed]
      exact hclosed known hs
  | .declare decl => by
      intro names r h
      rw [Statement.elaborate] at h
      exact made_local h
  | .branch cases => by
      intro names r h
      rw [Statement.elaborate] at h
      exact made_conditional cases h
  | .loop head body => by
      intro names r h
      rw [Statement.elaborate] at h
      obtain ⟨mid, hx, hleave⟩ := inScope_eq_ok h
      obtain ⟨⟨init, cond, post⟩, mid₁, hhead, hrest⟩ := bind_eq_ok hx
      obtain ⟨rfl, hparts⟩ := made_loopHead hhead
      obtain ⟨b, mid₂, hbody, hend⟩ := bind_eq_ok hrest
      obtain ⟨mid₃, hb, rfl⟩ := inScope_eq_ok hbody
      have hmade := made_body body hb
      obtain ⟨hr, rfl⟩ := Prod.mk.inj (pure_eq_ok hend)
      rw [hleave, hr]
      refine Made.of_inScope hmade.grows.leave rfl fun hv n known hn hs => ?_
      obtain ⟨hinit, hcond, hpost⟩ := hparts hv n known (hmade.grows.mono.trans hn) hs
      rw [Stmt.Closed]
      exact ⟨hinit, hcond, hmade.closed hv n _ hn (hs.with _), hpost⟩
  | .block body => by
      intro names r h
      rw [Statement.elaborate] at h
      obtain ⟨b, mid, hbody, hend⟩ := bind_eq_ok h
      obtain ⟨mid', hb, rfl⟩ := inScope_eq_ok hbody
      have hmade := made_body body hb
      obtain rfl := pure_eq_ok hend
      refine Made.of_inScope hmade.grows rfl fun hv n known hn hs => ?_
      rw [Stmt.Closed]
      exact hmade.closed hv n known hn hs
  | .simple stmt => by
      intro names r h
      rw [Statement.elaborate] at h
      obtain ⟨hnames, hmade⟩ := made_simple h
      rw [hnames]
      exact hmade

/-- A conditional that breaks no rule is closed over what is known where it stands. -/
theorem made_conditional : ∀ (t : Conditional) ⦃names : Names⦄ ⦃r : Stmt × Names⦄,
    t.elaborate names = .ok r → Made names r.2 r.1
  | .mk init cond body other => by
      intro names r h
      rw [Conditional.elaborate] at h
      obtain ⟨mid, hx, hleave⟩ := inScope_eq_ok h
      obtain ⟨i, mid₁, hi, hcond⟩ := bind_eq_ok hx
      obtain ⟨rfl, hinit⟩ := made_optSimple hi
      obtain ⟨c, mid₂, hc, hrest⟩ := bind_eq_ok hcond
      obtain ⟨rfl, hclosed⟩ := closed_resolve hc
      obtain ⟨b, mid₃, hbody, hthen⟩ := bind_eq_ok hrest
      obtain ⟨mid₄, hb, rfl⟩ := inScope_eq_ok hbody
      have hmade := made_body body hb
      obtain ⟨o, mid₅, ho, hend⟩ := bind_eq_ok hthen
      have hother := made_otherwise other ho
      obtain ⟨hr, rfl⟩ := Prod.mk.inj (pure_eq_ok hend)
      rw [hleave, hr]
      refine Made.of_inScope (hmade.grows.leave.trans hother.grows) rfl fun hv n known hn hs => ?_
      have hn₃ := hother.grows.mono.trans hn
      have hscopes := hmade.grows.scopes_leave
      rw [Stmt.Closed]
      refine ⟨hinit hv n known (hmade.grows.mono.trans hn₃) hs, hclosed _ (hs.with _),
        hmade.closed hv n _ hn₃ (hs.with _), hother.closed (hmade.grows.leave.valid hv) n _ hn ?_⟩
      rw [hscopes]
      exact hs.with _

/-- The other case of a conditional. -/
theorem made_otherwise : ∀ (t : Otherwise) ⦃names : Names⦄ ⦃r : Option Stmt × Names⦄,
    t.elaborate names = .ok r → OptMade names r.2 r.1
  | .none => by
      intro names r h
      rw [Otherwise.elaborate] at h
      obtain rfl := pure_eq_ok h
      refine ⟨Grows.refl _, fun _ n known _ _ => ?_⟩
      rw [Stmt.OptClosed]
      trivial
  | .elseIf cases => by
      intro names r h
      rw [Otherwise.elaborate] at h
      obtain ⟨s, mid, hs, hend⟩ := bind_eq_ok h
      have hmade := made_conditional cases hs
      obtain rfl := pure_eq_ok hend
      refine ⟨hmade.grows, fun hv n known hn hknown => ?_⟩
      rw [Stmt.OptClosed]
      exact hmade.closed hv n known hn hknown
  | .elseBlock body => by
      intro names r h
      rw [Otherwise.elaborate] at h
      obtain ⟨b, mid, hbody, hend⟩ := bind_eq_ok h
      obtain ⟨mid', hb, rfl⟩ := inScope_eq_ok hbody
      have hmade := made_body body hb
      obtain rfl := pure_eq_ok hend
      refine ⟨hmade.grows.leave, fun hv n known hn hs => ?_⟩
      rw [Stmt.OptClosed, Stmt.Closed]
      exact hmade.closed hv n known hn hs

/-- The statements of a block are closed, each over what is known behind those in front of it. -/
theorem made_body : ∀ (t : Body) ⦃names : Names⦄ ⦃r : List Stmt × Names⦄,
    t.elaborate names = .ok r → AllMade names r.2 r.1
  | .close => by
      intro names r h
      rw [Body.elaborate] at h
      obtain rfl := pure_eq_ok h
      refine ⟨Grows.refl _, fun _ n known _ _ => ?_⟩
      rw [Stmt.AllClosed]
      trivial
  | .skip rest => by
      intro names r h
      rw [Body.elaborate] at h
      exact made_body rest h
  | .last stmt => by
      intro names r h
      rw [Body.elaborate] at h
      obtain ⟨s, mid, hs, hend⟩ := bind_eq_ok h
      have hmade := made_statement stmt hs
      obtain rfl := pure_eq_ok hend
      refine ⟨hmade.grows, fun hv n known hn hknown => ?_⟩
      rw [Stmt.AllClosed, Stmt.AllClosed]
      exact ⟨hmade.closed hv n known hn hknown, trivial⟩
  | .next stmt rest => by
      intro names r h
      rw [Body.elaborate] at h
      obtain ⟨s, mid, hs, hrest⟩ := bind_eq_ok h
      obtain ⟨ss, mid', hss, hend⟩ := bind_eq_ok hrest
      have hmade := made_statement stmt hs
      have hmades := made_body rest hss
      obtain rfl := pure_eq_ok hend
      refine ⟨hmade.grows.trans hmades.grows, fun hv n known hn hknown => ?_⟩
      rw [Stmt.AllClosed]
      exact ⟨hmade.closed hv n known (hmades.grows.mono.trans hn) hknown,
        hmades.closed (hmade.grows.valid hv) n _ hn (hmade.knows known hknown)⟩

end

/-! ## Functions and programs -/

theorem parameter_eq_ok {count : Nat} {name : String} {r : Nat × Names}
    (h : parameter count name names = .ok r) :
    count < maxArguments ∧ r.1 = count + 1 ∧ Grows names r.2 ∧
      r.2.declared.length = names.declared.length + 1 := by
  unfold parameter at h
  split at h
  · next hlt =>
      obtain ⟨id, mid, hdeclare, hend⟩ := bind_eq_ok h
      obtain rfl := pure_eq_ok hend
      obtain ⟨-, hdeclared, -, -⟩ := declare_eq_ok hdeclare
      have hlength := congrArg List.length hdeclared
      rw [List.length_append, List.length_singleton] at hlength
      exact ⟨hlt, rfl, grows_declare hdeclare, hlength⟩
  · cases h

/-- The parameters are the first variables of a function, and there are registers for them. -/
theorem params_eq_ok (t : Params) {count : Nat} {r : Nat × Names}
    (h : t.elaborate count names = .ok r) (hcount : names.declared.length = count)
    (hmax : count ≤ maxArguments) :
    r.2.declared.length = r.1 ∧ r.1 ≤ maxArguments ∧ Grows names r.2 := by
  induction t generalizing names count with
  | close =>
      obtain rfl := pure_eq_ok h
      exact ⟨hcount, hmax, Grows.refl _⟩
  | last name =>
      obtain ⟨hlt, hr, hgrows, hlength⟩ := parameter_eq_ok h
      exact ⟨by rw [hlength, hr, hcount], by rw [hr]; exact hlt, hgrows⟩
  | next name rest ih =>
      obtain ⟨count', mid, hparam, hrest⟩ := bind_eq_ok h
      obtain ⟨hlt, rfl, hgrows, hlength⟩ := parameter_eq_ok hparam
      obtain ⟨hdeclared, hmax', hgrows'⟩ := ih hrest (by rw [hlength, hcount]) hlt
      exact ⟨hdeclared, hmax', hgrows.trans hgrows'⟩

/-- **A function that breaks no rule is well formed**, and leaves no scope open. -/
theorem wellFormed_function {t : Function} {r : MicroGo.Function × Names}
    (h : t.elaborate names = .ok r) (hscopes : names.scopes = []) :
    r.1.WellFormed ∧ r.1.name = t.name ∧ r.2.scopes = [] := by
  obtain ⟨⟨⟨count, body⟩, after⟩, hscoped, hend⟩ := except_bind_eq_ok h
  cases hend
  obtain ⟨mid, hx, hafter⟩ := inScope_eq_ok hscoped
  obtain ⟨count', mid₁, hparams, hrest⟩ := bind_eq_ok hx
  obtain ⟨body', mid₂, hbody, hpair⟩ := bind_eq_ok hrest
  obtain ⟨hr, rfl⟩ := Prod.mk.inj (pure_eq_ok hpair)
  obtain ⟨rfl, rfl⟩ := Prod.mk.inj hr
  obtain ⟨hdeclared, hmax, hgrows⟩ := params_eq_ok t.params hparams rfl (Nat.zero_le _)
  have hmade := made_body t.body hbody
  -- no scope is open in front of a function, so its parameters are all that is known
  have hstart : Names.Valid ({ names with declared := [] } : Names).enter := by
    intro x id hid
    rw [find?_enter] at hid
    simp [hscopes, Scopes.find?] at hid
  have hknown := hgrows.valid hstart
  simp only at hdeclared hknown hafter
  rw [hdeclared] at hknown
  have hafterScopes : after.scopes = [] := by
    rw [hafter, (hgrows.trans hmade.grows).scopes_leave]
    exact hscopes
  have hafterDeclared : after.declared = mid.declared := by rw [hafter]; rfl
  refine ⟨?_, rfl, hafterScopes⟩
  rw [hafterDeclared]
  refine Function.wellFormed_ofDeclarations ?_ hmax ?_
  · rw [← hdeclared]
    exact hmade.grows.mono
  · exact hmade.closed (hgrows.valid hstart) _ _ (Nat.le_refl _) hknown

/-- **Functions that break no rule are well formed and have different names.** -/
theorem wellFormed_functions (ts : List Function) {done : List MicroGo.Function}
    {r : List MicroGo.Function × Names} (h : functionsElaborate done ts names = .ok r)
    (hscopes : names.scopes = []) (hdone : (MicroGo.Program.mk done).WellFormed) :
    (MicroGo.Program.mk r.1).WellFormed := by
  induction ts generalizing names done with
  | nil =>
      obtain rfl := pure_eq_ok h
      exact hdone
  | cons t ts ih =>
      obtain ⟨g, mid, hg, hrest⟩ := bind_eq_ok h
      obtain ⟨hwell, -, hmid⟩ := wellFormed_function hg hscopes
      split at hrest
      · cases hrest
      · next hnew =>
          refine ih hrest hmid ⟨?_, ?_⟩
          · have hfresh : g.name ∉ done.map MicroGo.Function.name := by
              simpa using hnew
            rw [List.map_append, List.map_singleton, ← List.concat_eq_append]
            exact hdone.nodup.concat hfresh
          · intro f hf
            rcases List.mem_append.1 hf with hf | hf
            · exact hdone.functions f hf
            · rw [List.mem_singleton.1 hf]
              exact hwell

end Grammar

/-- **A program that was read is well formed.** -/
theorem wellFormed_of_parse {tokens : List Token} {p : Program}
    (h : (Program.parse tokens).result = .ok p) : p.WellFormed := by
  obtain ⟨t, -, ht⟩ := exists_elaborate h
  obtain ⟨⟨fs, names⟩, hfs, hend⟩ := except_bind_eq_ok ht
  cases hend
  exact Grammar.wellFormed_functions t.functions hfs rfl ⟨List.nodup_nil, by simp⟩

end MicroGo
