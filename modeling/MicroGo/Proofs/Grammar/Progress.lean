import Mathlib.Tactic.Common
import MicroGo.Proofs.Grammar.Advance
import MicroGo.Proofs.Grammar.FirstEnd

/-!
# Reading makes progress

At the end of the input a parser sees the same token for ever.  So nothing but the tokens that are
taken can bring reading to an end: a repetition that goes on at the end of the input would not stop,
and neither would a parser that calls itself before it has taken something.  This module shows that
neither happens, on any list of tokens.

## The cursor

A list is read up to its first end of the input.  `State.CursorAt tokens i s` says that the first
`i` tokens of the list have been taken in the state `s`.  No parser moves the cursor backwards or
past that end, and the parsers whose phrases are not empty move it forward when they give a value
(`NonemptyPhrase`).  So does each round of a repetition after which there is another one
(`Repetition`).

## Recursion without budgets

A parser that is built over a parser for the phrases inside calls it with fewer tokens ahead than
there were when it began itself (`Nesting`).  This is said with `below n`, which gives up unless
fewer than `n` tokens are ahead: putting it around the parser for the phrases inside changes
nothing.

Repetitions and nested phrases can then be read by recursion on the number of tokens ahead, without
a budget (`loopDown`, `nestDown`), and come to the same.  In turn a budget that exceeds the number
of tokens ahead is never used up, and it does not matter how large it is.

All of this follows from what is known of two readers that are followed at once (`EndsAlike`): here
the two are the same, or differ in the parser for the phrases inside.
-/

namespace MicroGo
namespace Parser

variable {α β σ : Type} {k : α → Nat} {s t : State}

/-! ## Recursion on the tokens ahead -/

/-- The parser, where fewer than `n` tokens are ahead.  Elsewhere it gives up. -/
def below (n : Nat) (p : Parser α) : Parser α :=
  fun s => if s.ahead.length < n then p s else exhausted s

/-- **Repetition by recursion on the tokens ahead.**  A round after which no fewer tokens are ahead
has no other one behind it. -/
def loopDown (step : σ → Parser (σ ⊕ β)) (x : σ) (s : State) : EStateM.Result Failure State β :=
  match step x s with
  | .error e t => .error e t
  | .ok (.inr b) t => .ok b t
  | .ok (.inl y) t => if t.ahead.length < s.ahead.length then loopDown step y t else exhausted t
termination_by s.ahead.length

/-- **Nested phrases by recursion on the tokens ahead.**  The phrases inside are not read with as
many tokens ahead as there were at the beginning. -/
def nestDown (F : Parser α → Parser α) (s : State) : EStateM.Result Failure State α :=
  F (fun t => if t.ahead.length < s.ahead.length then nestDown F t else exhausted t) s
termination_by s.ahead.length

theorem below_of_lt {n : Nat} (p : Parser α) (h : s.ahead.length < n) : below n p s = p s :=
  if_pos h

theorem nestDown_eq (F : Parser α → Parser α) (s : State) :
    nestDown F s = F (below s.ahead.length (nestDown F)) s := by
  rw [nestDown]
  rfl

section LoopDown

variable {step : σ → Parser (σ ⊕ β)} {x y : σ}

theorem loopDown_of_error {e : Failure} (h : step x s = .error e t) :
    loopDown step x s = .error e t := by
  rw [loopDown, h]

theorem loopDown_of_inr {b : β} (h : step x s = .ok (.inr b) t) :
    loopDown step x s = .ok b t := by
  rw [loopDown, h]

theorem loopDown_of_inl (h : step x s = .ok (.inl y) t) (hlt : t.ahead.length < s.ahead.length) :
    loopDown step x s = loopDown step y t := by
  rw [loopDown, h]
  exact if_pos hlt

end LoopDown

/-! ## States that are read up to an end of the input -/

/-- The state stops at an end of the input and has none ahead. -/
structure State.Proper (s : State) : Prop where
  noEnd : ∀ t ∈ s.ahead, t.kind ≠ .eof
  stop : s.stop.kind = .eof

theorem State.Proper.extends (h : s.Proper) : Extends s s where
  ahead := ⟨[], (List.append_nil _).symm, rfl⟩
  noEnd := h.noEnd
  stop := h.stop
  scopes := rfl
  declared := rfl
  log := rfl

theorem State.Proper.of_before (h : s.Proper) (hst : s.Before t) : t.Proper where
  noEnd := fun u hu => h.noEnd u (hst.ahead.subset hu)
  stop := hst.stop ▸ h.stop

theorem Extends.proper {r : State} (h : Extends r s) : s.Proper :=
  ⟨h.noEnd, h.stop⟩

/-- A state that holds more has an end of the input ahead, unless it is the same state. -/
theorem Extends.eq {r : State} (h : Extends r s) (hr : r.Proper) : r = s := by
  obtain ⟨back, hahead, hstop⟩ := h.ahead
  have hback : back = [] := by
    cases back with
    | nil => rfl
    | cons t rest =>
      have ht : t ∈ r.ahead := by
        rw [hahead]
        exact List.mem_append_right _ List.mem_cons_self
      have hkind : t.kind = .eof := (show t = s.stop from hstop) ▸ h.stop
      exact absurd hkind (hr.noEnd t ht)
  subst hback
  rw [List.append_nil] at hahead
  cases r
  cases s
  obtain rfl : _ = _ := hahead
  obtain rfl : _ = _ := hstop
  obtain rfl : _ = _ := h.scopes
  obtain rfl : _ = _ := h.declared
  obtain rfl : _ = _ := h.log
  rfl

/-! ## One run -/

/-- **The parser pays with tokens**: for a value it has taken at least as many as `k` says, and its
complaints are about tokens, never about a budget. -/
structure Pays (k : α → Nat) (p : Parser α) : Prop where
  ok : ∀ {s t : State} {a : α}, s.Proper → p s = .ok a t →
    t.Proper ∧ t.ahead.length + k a ≤ s.ahead.length
  error : ∀ {s t : State} {e : Failure}, s.Proper → p s = .error e t → e.complaint.IsAboutTokens

/-- What is counted of two runs is counted of the second one. -/
theorem pays_of_endsAlike {p q : Parser α} (h : ∀ n, EndsAlike n k p q) : Pays k q := by
  have hrun {s : State} (hs : s.Proper) : Alike k s (p s) (q s) :=
    h _ s s hs.extends (Nat.lt_succ_self _)
  constructor
  · intro s t a hs hq
    have hp := hrun hs
    rw [hq] at hp
    obtain ⟨hle, u, -, hut⟩ := hp
    exact ⟨hut.proper, hle⟩
  · intro s t e hs hq
    have hp := hrun hs
    rw [hq] at hp
    exact hp.1

/-- Two runs from one state come to the same, the state at their end included. -/
theorem EndsAlike.eq {n : Nat} {p q : Parser α} (h : EndsAlike n k p q) (hp : Advances p)
    (hs : s.Proper) (hn : s.ahead.length < n) : q s = p s := by
  have halike := h s s hs.extends hn
  have hbefore := hp s
  cases hq : q s with
  | ok a t =>
    rw [hq] at halike
    obtain ⟨-, u, hu, hut⟩ := halike
    rw [hu] at hbefore
    rw [hu, hut.eq (hs.of_before hbefore)]
  | error e t =>
    rw [hq] at halike
    obtain ⟨-, u, hu, hut⟩ := halike
    rw [hu] at hbefore
    rw [hu, hut.eq (hs.of_before hbefore)]

/-! ## Repetitions -/

section Repetitions

variable {step : σ → Parser (σ ⊕ β)}

/-- A budget that exceeds the number of tokens ahead is as good as none. -/
theorem iterate_eq_loopDown (h : ∀ x, Pays perRound (step x)) (budget : Nat) (x : σ) {s : State}
    (hs : s.Proper) (hbudget : s.ahead.length < budget) :
    iterate step budget x s = loopDown step x s := by
  induction budget generalizing x s with
  | zero => exact absurd hbudget (Nat.not_lt_zero _)
  | succ budget ih =>
    cases hstep : step x s with
    | error e t => rw [iterate, bind_of_error hstep, loopDown_of_error hstep]
    | ok next t =>
      cases next with
      | inr b => rw [iterate_inr budget hstep, loopDown_of_inr hstep]
      | inl y =>
        -- the round has taken a token, so the rest of the budget exceeds what is left
        obtain ⟨ht, hle⟩ := (h x).ok hs hstep
        have hlt : t.ahead.length < s.ahead.length := hle
        rw [iterate_inl budget hstep, loopDown_of_inl hstep hlt]
        exact ih y ht (by omega)

theorem loop_eq_loopDown (h : ∀ x, Pays perRound (step x)) (x : σ) (hs : s.Proper) :
    loop step x s = loopDown step x s :=
  iterate_eq_loopDown h _ x hs (Nat.lt_succ_self _)

end Repetitions

/-! ## Phrases inside phrases -/

/-- **A way to build a parser that takes a token first**: what `F` makes of two parsers is alike
where one token more is ahead than where the two are. -/
def TakesFirst (k : β → Nat) (F : Parser α → Parser β) : Prop :=
  ∀ ⦃n : Nat⦄ ⦃p q : Parser α⦄, EndsAlike n (fun _ => 1) p q → EndsAlike (n + 1) k (F p) (F q)

section Nested

variable {c : β → Nat} {F : Parser α → Parser β} {p q : Parser α}

/-- Only what the parser inside does with fewer tokens ahead matters. -/
theorem TakesFirst.congr (hF : TakesFirst c F) (hp : ∀ n, EndsAlike n (fun _ => 1) p p)
    (hadvances : Advances (F p)) (hs : s.Proper)
    (h : ∀ t : State, t.Proper → t.ahead.length < s.ahead.length → q t = p t) :
    F q s = F p s := by
  have hpq : EndsAlike s.ahead.length (fun _ => 1) p q := by
    intro r t hrt ht
    rw [h t hrt.proper ht]
    exact hp _ r t hrt ht
  exact (hF hpq).eq hadvances hs (Nat.lt_succ_self _)

theorem TakesFirst.below_eq (hF : TakesFirst c F) (hp : ∀ n, EndsAlike n (fun _ => 1) p p)
    (hadvances : Advances (F p)) (hs : s.Proper) : F (below s.ahead.length p) s = F p s :=
  hF.congr hp hadvances hs fun _ _ hlt => below_of_lt p hlt

/-- A parser that is built over itself is got by recursion on the tokens ahead. -/
theorem TakesFirst.nestDown_eq {c : α → Nat} {F : Parser α → Parser α} (hF : TakesFirst c F)
    (hp : ∀ n, EndsAlike n (fun _ => 1) p p) (hadvances : Advances (F p))
    (hfix : ∀ {s : State}, s.Proper → p s = F p s) (hs : s.Proper) : nestDown F s = p s := by
  induction hn : s.ahead.length using Nat.strongRecOn generalizing s with
  | ind n ih =>
    rw [Parser.nestDown_eq, hfix hs]
    refine hF.congr hp hadvances hs fun t ht hlt => ?_
    exact (below_of_lt _ hlt).trans (ih t.ahead.length (hn ▸ hlt) ht rfl)

end Nested

/-! ### Expressions and statements -/

theorem endsAlike_operandAt {n : Nat} {p q : Parser Expr} (h : EndsAlike n (fun _ => 1) p q)
    (level : Nat) : EndsAlike (n + 1) (fun _ => 1) (operandAt p level) (operandAt q level) := by
  induction level with
  | zero => exact endsAlike_unary (endsAlike_primary h)
  | succ level ih => exact endsAlike_chain _ ih

theorem built_operandAt {g : Position → Position} {p : Parser Expr} (h : Built g p p)
    (level : Nat) : Built g (operandAt p level) (operandAt p level) := by
  induction level with
  | zero => exact built_unary (built_primary h)
  | succ level ih => exact built_chain _ ih

/-- It does not matter how much the budget exceeds the number of tokens ahead. -/
theorem exprAt_eq_expr {n : Nat} (hs : s.Proper) (hn : s.ahead.length < n) :
    exprAt n s = expr s :=
  ((endsAlike_exprAt (s.ahead.length + 1) hn).eq (built_exprAt (g := id) n).advances hs
    (Nat.lt_succ_self _)).symm

theorem stmtAt_eq_stmt {n : Nat} (hs : s.Proper) (hn : s.ahead.length < n) :
    stmtAt n s = stmt s :=
  ((endsAlike_stmtAt (s.ahead.length + 1) hn).eq (built_stmtAt (g := id) n).advances hs
    (Nat.lt_succ_self _)).symm

/-- **Expressions are built over expressions**, and no budget is in it. -/
theorem expr_eq_comparison (hs : s.Proper) : expr s = comparison expr s :=
  TakesFirst.congr (fun _ _ _ => endsAlike_comparison) (fun _ => endsAlike_expr)
    (built_comparison (built_expr (g := id))).advances hs fun _ ht hlt => exprAt_eq_expr ht hlt

/-- **Statements are built over statements**, and no budget is in it. -/
theorem stmt_eq_statement (hs : s.Proper) : stmt s = statement stmt s :=
  TakesFirst.congr (fun _ _ _ => endsAlike_statement) (fun _ => endsAlike_stmt)
    (built_statement (built_stmt (g := id))).advances hs fun _ ht hlt => stmtAt_eq_stmt ht hlt

theorem expr_eq_nestDown (hs : s.Proper) : expr s = nestDown comparison s :=
  (TakesFirst.nestDown_eq (fun _ _ _ => endsAlike_comparison) (fun _ => endsAlike_expr)
    (built_comparison (built_expr (g := id))).advances expr_eq_comparison hs).symm

theorem stmt_eq_nestDown (hs : s.Proper) : stmt s = nestDown statement s :=
  (TakesFirst.nestDown_eq (fun _ _ _ => endsAlike_statement) (fun _ => endsAlike_stmt)
    (built_statement (built_stmt (g := id))).advances stmt_eq_statement hs).symm

/-! ## The parsers of the language -/

/-- **The parsers whose phrases are not empty.**  The operands of a level are those with signs, the
products, the sums and the comparisons. -/
inductive NonemptyPhrase : {α : Type} → Parser α → Prop where
  | expr : NonemptyPhrase Parser.expr
  | operand (level : Nat) : NonemptyPhrase (operandAt Parser.expr level)
  | primary : NonemptyPhrase (Parser.primary Parser.expr)
  | call : NonemptyPhrase (Parser.call Parser.expr)
  | simple : NonemptyPhrase Parser.simple
  | stmt : NonemptyPhrase Parser.stmt
  | body : NonemptyPhrase (Parser.body Parser.stmt)
  | function : NonemptyPhrase Parser.function

/-- **The repetitions**, each given by its round. -/
inductive Repetition : {σ β : Type} → (σ → Parser (σ ⊕ β)) → Prop where
  | chain (level : Nat) : Repetition (chainStep (Grammar.operators level) (operandAt expr level))
  | signs : Repetition signStep
  | arguments : Repetition (argumentStep expr)
  | body : Repetition (bodyStep stmt)
  | parameters : Repetition parameterStep
  | functions : Repetition functionStep

/-- **The parsers that are built over a parser for the phrases inside**, and that parser. -/
inductive Nesting : {α β : Type} → (Parser α → Parser β) → Parser α → Prop where
  | operand (level : Nat) : Nesting (operandAt · level) expr
  | primary : Nesting Parser.primary expr
  | call : Nesting Parser.call expr
  | statement : Nesting Parser.statement stmt
  | branch : Nesting Parser.branch stmt
  | otherwise : Nesting Parser.otherwise stmt
  | repetition : Nesting Parser.repetition stmt
  | block : Nesting Parser.block stmt
  | body : Nesting Parser.body stmt

theorem NonemptyPhrase.endsAlike {p : Parser α} (h : NonemptyPhrase p) (n : Nat) :
    EndsAlike n (fun _ => 1) p p := by
  cases h with
  | expr => exact endsAlike_expr
  | operand level => exact (endsAlike_operandAt endsAlike_expr level).fewer (Nat.le_succ n)
  | primary => exact (endsAlike_primary endsAlike_expr).fewer (Nat.le_succ n)
  | call => exact (endsAlike_call endsAlike_expr).fewer (Nat.le_succ n)
  | simple => exact endsAlike_simple
  | stmt => exact endsAlike_stmt
  | body => exact (endsAlike_body endsAlike_stmt).fewer (Nat.le_succ n)
  | function => exact endsAlike_function

theorem NonemptyPhrase.built {p : Parser α} (h : NonemptyPhrase p) : Built id p p := by
  cases h with
  | expr => exact built_expr
  | operand level => exact built_operandAt built_expr level
  | primary => exact built_primary built_expr
  | call => exact built_call built_expr
  | simple => exact built_simple
  | stmt => exact built_stmt
  | body => exact built_body built_stmt
  | function => exact built_function

theorem Repetition.pays {step : σ → Parser (σ ⊕ β)} (h : Repetition step) (x : σ) :
    Pays perRound (step x) := by
  cases h with
  | chain level =>
    exact pays_of_endsAlike fun n => endsAlike_chainStep _
      ((endsAlike_operandAt endsAlike_expr level).fewer (Nat.le_succ n)) x
  | signs => exact pays_of_endsAlike fun _ => endsAlike_signStep x
  | arguments => exact pays_of_endsAlike fun _ => endsAlike_argumentStep endsAlike_expr x
  | body => exact pays_of_endsAlike fun _ => endsAlike_bodyStep endsAlike_stmt x
  | parameters => exact pays_of_endsAlike fun _ => endsAlike_parameterStep x
  | functions => exact pays_of_endsAlike fun _ => endsAlike_functionStep x

theorem Repetition.built {step : σ → Parser (σ ⊕ β)} (h : Repetition step) (x : σ) :
    Built id (step x) (step x) := by
  cases h with
  | chain level =>
    refine (Built.take? _).bind fun taken => ?_
    cases taken with
    | none => exact .pure _
    | some combine => exact (built_operandAt built_expr level).bind fun _ => .pure _
  | signs => exact built_signStep x
  | arguments => exact built_argumentStep built_expr x
  | body => exact built_bodyStep built_stmt x
  | parameters => exact built_parameterStep x
  | functions => exact built_functionStep x

/-- **The phrases inside are read when a token has been taken.** -/
theorem Nesting.takesFirst {F : Parser α → Parser β} {p : Parser α} (h : Nesting F p) :
    TakesFirst (fun _ => 0) F := by
  cases h with
  | operand level => exact fun _ _ _ h => (endsAlike_operandAt h level).uncounted
  | primary => exact fun _ _ _ h => (endsAlike_primary h).uncounted
  | call => exact fun _ _ _ h => (endsAlike_call h).uncounted
  | statement => exact fun _ _ _ h => (endsAlike_statement h).uncounted
  | branch => exact fun _ _ _ h => endsAlike_branch h
  | otherwise => exact fun _ _ _ h => endsAlike_otherwise h
  | repetition => exact fun _ _ _ h => endsAlike_repetition h
  | block => exact fun _ _ _ h => (endsAlike_block h).uncounted
  | body => exact fun _ _ _ h => (endsAlike_body h).uncounted

theorem Nesting.inside {F : Parser α → Parser β} {p : Parser α} (h : Nesting F p) :
    NonemptyPhrase p := by
  cases h with
  | operand | primary | call => exact .expr
  | statement | branch | otherwise | repetition | block | body => exact .stmt

theorem Nesting.built {F : Parser α → Parser β} {p : Parser α} (h : Nesting F p) :
    Built id (F p) (F p) := by
  cases h with
  | operand level => exact built_operandAt built_expr level
  | primary => exact built_primary built_expr
  | call => exact built_call built_expr
  | statement => exact built_statement built_stmt
  | branch => exact built_branch built_stmt
  | otherwise => exact built_otherwise built_stmt
  | repetition => exact built_repetition built_stmt
  | block => exact built_block built_stmt
  | body => exact built_body built_stmt

/-! ## The cursor -/

/-- **The cursor stands behind the first `i` tokens of a list.**  No end of the input is among them,
and what is ahead are the tokens that follow, up to the first end of the input. -/
structure State.CursorAt (tokens : List Token) (i : Nat) (s : State) : Prop where
  le : i ≤ (tokens.takeWhile fun t => t.kind ≠ .eof).length
  ahead : s.ahead = (tokens.takeWhile fun t => t.kind ≠ .eof).drop i
  stop : s.stop = State.stopOf tokens

namespace State.CursorAt

variable {tokens : List Token} {i : Nat}

theorem ofTokens (tokens : List Token) : (State.ofTokens tokens).CursorAt tokens 0 :=
  ⟨Nat.zero_le _, rfl, rfl⟩

theorem le_length (h : s.CursorAt tokens i) : i ≤ tokens.length :=
  h.le.trans (List.takeWhile_prefix _).length_le

theorem proper (h : s.CursorAt tokens i) : s.Proper := by
  have hstart := (extends_start tokens).proper
  refine hstart.of_before ⟨?_, h.stop⟩
  rw [h.ahead]
  exact List.drop_suffix i _

/-- The cursor moves on by the number of tokens that are taken. -/
theorem of_before (h : s.CursorAt tokens i) (hst : s.Before t) :
    t.CursorAt tokens (i + (s.ahead.length - t.ahead.length)) := by
  have hle := hst.ahead.length_le
  have hlength : s.ahead.length = (tokens.takeWhile fun t => t.kind ≠ .eof).length - i := by
    rw [h.ahead, List.length_drop]
  refine ⟨?_, ?_, hst.stop.trans h.stop⟩
  · have := h.le
    omega
  · rw [← List.drop_drop, ← h.ahead]
    exact List.suffix_iff_eq_drop.1 hst.ahead

/-- The cursor never moves backwards. -/
theorem exists_le (h : s.CursorAt tokens i) (hst : s.Before t) :
    ∃ j, i ≤ j ∧ t.CursorAt tokens j :=
  ⟨_, Nat.le_add_right _ _, h.of_before hst⟩

theorem exists_lt (h : s.CursorAt tokens i) (hst : s.Before t)
    (hlt : t.ahead.length < s.ahead.length) : ∃ j, i < j ∧ t.CursorAt tokens j :=
  ⟨_, by omega, h.of_before hst⟩

end State.CursorAt

/-- **What progress means** with the cursor behind the first `i` tokens of a list. -/
structure ProgressAt (tokens : List Token) (i : Nat) (s : State) : Prop where
  /-- The cursor is not behind the end of the list. -/
  within : i ≤ tokens.length
  /-- The cursor never moves backwards, whatever comes of a parser. -/
  forward : ∀ {α : Type} {g : Position → Position} {p q : Parser α}, Built g p q →
    ∃ j, i ≤ j ∧ (lastState (p s)).CursorAt tokens j
  /-- A phrase that is not empty takes a token, and no budget is used up. -/
  phrase : ∀ {α : Type} {p : Parser α}, NonemptyPhrase p →
    (∀ a t, p s = .ok a t → ∃ j, i < j ∧ t.CursorAt tokens j) ∧
      ∀ e t, p s = .error e t → e.complaint ≠ .budgetExhausted
  /-- A round takes a token before the next one begins, and no budget is used up. -/
  round : ∀ {σ β : Type} {step : σ → Parser (σ ⊕ β)}, Repetition step → ∀ x,
    (∀ y t, step x s = .ok (.inl y) t → ∃ j, i < j ∧ t.CursorAt tokens j) ∧
      ∀ e t, step x s = .error e t → e.complaint ≠ .budgetExhausted
  /-- A parser takes a token before it calls the parser for the phrases inside, which would use up
  the budget otherwise. -/
  nested : ∀ {α β : Type} {F : Parser α → Parser β} {p : Parser α}, Nesting F p →
    F (below s.ahead.length p) s = F p s ∧
      ∀ e t, F p s = .error e t → e.complaint ≠ .budgetExhausted
  /-- Repetitions are recursion on the number of tokens ahead, and any budget above it will do. -/
  loops : ∀ {σ β : Type} {step : σ → Parser (σ ⊕ β)}, Repetition step → ∀ x,
    loop step x s = loopDown step x s ∧
      ∀ budget, s.ahead.length < budget → iterate step budget x s = loop step x s
  /-- Expressions are read by recursion on the number of tokens ahead, and any budget above it will
  do. -/
  expressions : expr s = comparison expr s ∧ expr s = nestDown comparison s ∧
    ∀ budget, s.ahead.length < budget → exprAt budget s = expr s
  /-- So are statements. -/
  statements : stmt s = statement stmt s ∧ stmt s = nestDown statement s ∧
    ∀ budget, s.ahead.length < budget → stmtAt budget s = stmt s

/-- A complaint about tokens is none about the budget. -/
theorem ne_budgetExhausted {c : Complaint} (h : c.IsAboutTokens) : c ≠ .budgetExhausted := by
  rintro rfl
  exact h

/-- A value for which a token was paid leaves the cursor further on. -/
theorem State.CursorAt.exists_lt_of_pays {tokens : List Token} {i : Nat} {p : Parser α} {a : α}
    (hs : s.CursorAt tokens i) (hp : Pays k p) (hbuilt : Built id p p) (hrun : p s = .ok a t)
    (hk : 0 < k a) : ∃ j, i < j ∧ t.CursorAt tokens j := by
  have hbefore := hbuilt.advances s
  rw [hrun] at hbefore
  have hle := (hp.ok hs.proper hrun).2
  exact hs.exists_lt hbefore (by omega)

theorem State.CursorAt.progress {tokens : List Token} {i : Nat} (hs : s.CursorAt tokens i) :
    ProgressAt tokens i s where
  within := hs.le_length
  forward := fun hbuilt => hs.exists_le (hbuilt.advances s)
  phrase := by
    intro α p hp
    have hpays := pays_of_endsAlike hp.endsAlike
    exact ⟨fun a t hrun => hs.exists_lt_of_pays hpays hp.built hrun Nat.one_pos,
      fun e t hrun => ne_budgetExhausted (hpays.error hs.proper hrun)⟩
  round := by
    intro σ β step hstep x
    have hpays := hstep.pays x
    exact ⟨fun y t hrun => hs.exists_lt_of_pays hpays (hstep.built x) hrun Nat.one_pos,
      fun e t hrun => ne_budgetExhausted (hpays.error hs.proper hrun)⟩
  nested := by
    intro α β F p hF
    have hpays := pays_of_endsAlike fun n =>
      (hF.takesFirst (hF.inside.endsAlike n)).fewer (Nat.le_succ n)
    exact ⟨hF.takesFirst.below_eq hF.inside.endsAlike hF.built.advances hs.proper,
      fun e t hrun => ne_budgetExhausted (hpays.error hs.proper hrun)⟩
  loops := by
    intro σ β step hstep x
    have hloop := loop_eq_loopDown hstep.pays x hs.proper
    exact ⟨hloop, fun budget hbudget =>
      (iterate_eq_loopDown hstep.pays budget x hs.proper hbudget).trans hloop.symm⟩
  expressions := ⟨expr_eq_comparison hs.proper, expr_eq_nestDown hs.proper,
    fun _ hbudget => exprAt_eq_expr hs.proper hbudget⟩
  statements := ⟨stmt_eq_statement hs.proper, stmt_eq_nestDown hs.proper,
    fun _ hbudget => stmtAt_eq_stmt hs.proper hbudget⟩

/-- **Reading makes progress and ends**, whatever stands in the list of tokens.  It begins with the
cursor in front of the first token.  Wherever the cursor is, and whatever scopes are open, it moves
forward only and not past the list; phrases, rounds of repetitions and calls for the phrases inside
take tokens, so that all of them are recursion on the number of tokens ahead; and no budget is used
up, which is one more than that number. -/
theorem parse_progresses (tokens : List Token) :
    (State.ofTokens tokens).CursorAt tokens 0 ∧
      (∀ i s, State.CursorAt tokens i s → ProgressAt tokens i s) ∧
      ∀ pos, (Program.parse tokens).result ≠ .error ⟨.budgetExhausted, pos⟩ :=
  ⟨.ofTokens tokens, fun _ _ hs => hs.progress, fun _ hresult =>
    ne_budgetExhausted (isAboutTokens_of_parse hresult) rfl⟩

/-- Behind a semicolon stands a call, and behind it an end of the input that looks like another one.
The statement is read up to there. -/
theorem parse_progresses_call :
    let tokens : List Token := [⟨.reserved ";", ⟨1, 1⟩⟩, ⟨⟨.ident, "g"⟩, ⟨1, 2⟩⟩,
      ⟨.reserved "(", ⟨1, 3⟩⟩, ⟨⟨.num, "7"⟩, ⟨1, 4⟩⟩, ⟨.reserved ")", ⟨1, 5⟩⟩,
      ⟨⟨.eof, "("⟩, ⟨1, 6⟩⟩, ⟨.reserved ")", ⟨1, 7⟩⟩]
    let s : State := { ahead := (tokens.drop 1).take 4, stop := ⟨⟨.eof, "("⟩, ⟨1, 6⟩⟩ }
    s.CursorAt tokens 1 ∧ ∃ t, stmt s = .ok (.expr (.call "g" [.num 7])) t ∧
      ∃ j, 1 < j ∧ t.CursorAt tokens j := by
  intro tokens s
  have hs : s.CursorAt tokens 1 := ⟨by decide, by decide, by decide⟩
  have hrun : stmt s = .ok (.expr (.call "g" [.num 7])) { s with ahead := [] } := rfl
  exact ⟨hs, _, hrun, (((parse_progresses tokens).2.1 1 s hs).phrase .stmt).1 _ _ hrun⟩

end Parser
end MicroGo
