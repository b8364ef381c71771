import MicroGo.Proofs.Grammar.Elaboration

/-!
# What is read is a sentence

A parser that succeeds has taken the lexemes of a tree of the grammar.  That is said by `Reads`
for every parsing function, and at the end for whole programs: a list of tokens that has a program
spells a sentence.

## Repetitions

A round of a repetition can stop in front of a sign that it looked at and did not take.  So the
law for one round (`Round`) speaks of the text that follows: if the rest is a list of the kind that
is being read, then so is the round together with the rest.  The sign that was looked at decides
which list the rest can be.

## What a tree is built from

Only the shape of what is read matters here.  Which program the parser makes of it is the subject
of the converse, where a sentence is given and its reading is followed.
-/

namespace MicroGo

open Grammar

namespace Parser

variable {α β σ τ : Type} {s s' : State}

/-! ## The state as the grammar sees it -/

namespace State

/-- The lexemes ahead. -/
def lexemes (s : State) : List Lexeme :=
  s.ahead.map Token.toLexeme

/-- What is known of names. -/
def names (s : State) : Names :=
  ⟨s.scopes, s.declared⟩

/-- The state behind the token ahead. -/
def next (s : State) : State :=
  { s with ahead := s.ahead.tail }

@[simp] theorem lexemes_next (s : State) : s.next.lexemes = s.lexemes.tail := by
  simp [lexemes, next]

@[simp] theorem names_next (s : State) : s.next.names = s.names := rfl

@[simp] theorem lexemes_enter (s : State) : s.enter.lexemes = s.lexemes := rfl

@[simp] theorem names_enter (s : State) : s.enter.names = s.names.enter := rfl

@[simp] theorem lexemes_leave (s : State) : s.leave.lexemes = s.lexemes := rfl

@[simp] theorem names_leave (s : State) : s.leave.names = s.names.leave := rfl

@[simp] theorem lexemes_record (s : State) (e : Event) : (s.record e).lexemes = s.lexemes := rfl

@[simp] theorem names_record (s : State) (e : Event) : (s.record e).names = s.names := rfl

theorem length_lexemes (s : State) : s.lexemes.length = s.ahead.length :=
  List.length_map ..

theorem isAt_iff (s : State) (text : String) :
    s.isAt text = true ↔ s.lexemes.head? = some (.reserved text) := by
  cases h : s.ahead <;> simp [isAt, lexemes, h]

theorem current_toLexeme {l : Lexeme} {ls : List Lexeme} (h : s.lexemes = l :: ls) :
    s.current.toLexeme = l := by
  obtain ⟨t, ts, ht, rfl, -⟩ := List.map_eq_cons_iff.1 h
  simp [current, ht]

theorem following_toLexeme {l m : Lexeme} {ls : List Lexeme} (h : s.lexemes = l :: m :: ls) :
    s.following.toLexeme = m := by
  obtain ⟨t, ts, ht, -, hts⟩ := List.map_eq_cons_iff.1 h
  obtain ⟨u, us, rfl, rfl, -⟩ := List.map_eq_cons_iff.1 hts
  simp [following, ht]

end State

/-! ## Taking tokens -/

theorem take?_eq (f : Lexeme → Option α) (s : State) :
    take? f s = match s.lexemes.head?.bind f with
      | none => .ok none s
      | some a => .ok (some a) s.next := by
  unfold take?
  cases h : s.ahead with
  | nil => simp [State.lexemes, h]
  | cons t rest =>
      simp only [State.lexemes, h, List.map_cons, List.head?_cons, Option.bind_some]
      cases f t.toLexeme with
      | none => rfl
      | some a => simp [State.next, h]

theorem accept_eq (text : String) (s : State) :
    accept text s = if s.isAt text then .ok true s.next else .ok false s := by
  have htake := take?_eq (fun l => if l = .reserved text then some () else none) s
  show EStateM.bind _ _ s = _
  unfold EStateM.bind
  rw [htake]
  by_cases h : s.isAt text = true
  · rw [if_pos h, (s.isAt_iff text).1 h]
    simp only [Option.bind_some, if_true]
    rfl
  · have hnone : (s.lexemes.head?.bind fun l =>
        if l = Lexeme.reserved text then some () else none) = none := by
      cases hl : s.lexemes.head? with
      | none => rfl
      | some l =>
          have hne : l ≠ .reserved text := by
            rintro rfl
            exact h ((s.isAt_iff text).2 hl)
          simp [hne]
    rw [if_neg h, hnone]
    rfl

/-- A sign that is ahead is taken. -/
theorem accept_of_cons {text : String} {ls : List Lexeme} (h : s.lexemes = .reserved text :: ls) :
    accept text s = .ok true s.next := by
  rw [accept_eq, if_pos ((s.isAt_iff text).2 (by rw [h]; rfl))]

/-- A sign that is not ahead is not taken. -/
theorem accept_of_ne {text : String} (h : s.lexemes.head? ≠ some (.reserved text)) :
    accept text s = .ok false s := by
  rw [accept_eq, if_neg (fun hat => h ((s.isAt_iff text).1 hat))]

theorem isAt_of_cons {text : String} {ls : List Lexeme} (h : s.lexemes = .reserved text :: ls) :
    isAt text s = .ok true s := by
  rw [isAt, (s.isAt_iff text).2 (by rw [h]; rfl)]

theorem isAt_of_ne {text : String} (h : s.lexemes.head? ≠ some (.reserved text)) :
    isAt text s = .ok false s := by
  rw [isAt, Bool.eq_false_iff.2 fun hat => h ((s.isAt_iff text).1 hat)]

/-! ## Runs that succeed -/

theorem bind_eq_ok {x : Parser α} {f : α → Parser β} {b : β} (h : (x >>= f) s = .ok b s') :
    ∃ a t, x s = .ok a t ∧ f a t = .ok b s' := by
  change EStateM.bind x f s = _ at h
  unfold EStateM.bind at h
  split at h
  · next a t hx => exact ⟨a, t, hx, h⟩
  · cases h

theorem pure_eq_ok {a b : α} (h : (pure a : Parser α) s = .ok b s') : a = b ∧ s = s' := by
  change EStateM.Result.ok a s = .ok b s' at h
  injection h with ha hs
  exact ⟨ha, hs⟩

theorem lexemes_of_head? {l : Lexeme} (h : s.lexemes.head? = some l) :
    s.lexemes = l :: s.next.lexemes := by
  obtain ⟨ls, hls⟩ := List.head?_eq_some_iff.1 h
  rw [State.lexemes_next, hls, List.tail_cons]

theorem accept_eq_ok {text : String} {b : Bool} (h : accept text s = .ok b s') :
    (b = true ∧ s.lexemes = .reserved text :: s'.lexemes) ∨
      (b = false ∧ s' = s ∧ s.lexemes.head? ≠ some (.reserved text)) := by
  rw [accept_eq] at h
  split at h
  · next hat =>
      cases h
      exact .inl ⟨rfl, lexemes_of_head? ((s.isAt_iff text).1 hat)⟩
  · next hat =>
      cases h
      exact .inr ⟨rfl, rfl, fun hhead => hat ((s.isAt_iff text).2 hhead)⟩

theorem isAt_eq_ok {text : String} {b : Bool} (h : isAt text s = .ok b s') :
    s' = s ∧ (b = true ↔ s.lexemes.head? = some (.reserved text)) := by
  unfold isAt at h
  cases h
  exact ⟨rfl, s.isAt_iff text⟩

theorem expect_eq_ok {text : String} {u : Unit} (h : expect text s = .ok u s') :
    s.lexemes = .reserved text :: s'.lexemes := by
  obtain ⟨b, t, hb, hrest⟩ := bind_eq_ok h
  rcases accept_eq_ok hb with ⟨rfl, hlex⟩ | ⟨rfl, rfl, -⟩
  · obtain ⟨-, rfl⟩ := pure_eq_ok hrest
    exact hlex
  · cases hrest

theorem take?_eq_ok {f : Lexeme → Option α} {o : Option α} (h : take? f s = .ok o s') :
    (o = none ∧ s' = s) ∨ ∃ a l, o = some a ∧ f l = some a ∧ s.lexemes = l :: s'.lexemes := by
  rw [take?_eq] at h
  split at h
  · cases h
    exact .inl ⟨rfl, rfl⟩
  · next a ha =>
      cases h
      obtain ⟨l, hl, hf⟩ := Option.bind_eq_some_iff.1 ha
      exact .inr ⟨a, l, rfl, hf, lexemes_of_head? hl⟩

theorem identifier_eq_ok {t : Token} (h : identifier s = .ok t s') :
    s.lexemes = ⟨.ident, t.text⟩ :: s'.lexemes := by
  obtain ⟨c, s₁, hc, htake⟩ := bind_eq_ok h
  cases hc
  obtain ⟨o, s₂, ho, hrest⟩ := bind_eq_ok htake
  rcases take?_eq_ok ho with ⟨rfl, rfl⟩ | ⟨a, l, rfl, hf, hlex⟩
  · cases hrest
  · obtain ⟨rfl, rfl⟩ := pure_eq_ok hrest
    have hl : s.current.toLexeme = l := State.current_toLexeme hlex
    have hkind : l.kind = .ident := by
      by_contra hne
      simp [hne] at hf
    rw [hlex, ← hl, ← hkind, ← hl]

theorem ofName?_eq_some {name : String} {type : Ty} (h : Ty.ofName? name = some type) :
    name = "int" ∧ type = .int := by
  unfold Ty.ofName? at h
  split at h
  · next hname => exact ⟨hname, (Option.some.inj h).symm⟩
  · cases h

theorem typeName_eq_ok {type : Ty} (h : typeName s = .ok type s') :
    s.lexemes = typeLexeme :: s'.lexemes := by
  obtain ⟨o, s₁, ho, hrest⟩ := bind_eq_ok h
  rcases take?_eq_ok ho with ⟨rfl, rfl⟩ | ⟨a, ⟨kind, text⟩, rfl, hf, hlex⟩
  · cases hrest
  · obtain ⟨rfl, rfl⟩ := pure_eq_ok hrest
    simp only at hf
    split at hf
    · next hkind =>
        obtain ⟨rfl, rfl⟩ := ofName?_eq_some hf
        rw [hlex, hkind, typeLexeme]
    · cases hf

/-! ## Sentences of a kind -/

/-- What `p` takes when it succeeds is the text of a tree. -/
def Reads (p : Parser α) (spelled : τ → List Lexeme) : Prop :=
  ∀ ⦃s a s'⦄, p s = .ok a s' → ∃ t, s.lexemes = spelled t ++ s'.lexemes

/-- A round in front of a list makes a list, and a last round is one. -/
def Round (p : Parser (σ ⊕ β)) (spelled : τ → List Lexeme) : Prop :=
  ∀ ⦃s r s'⦄, p s = .ok r s' →
    match r with
    | .inl _ => ∀ t rest, s'.lexemes = spelled t ++ rest → ∃ t', s.lexemes = spelled t' ++ rest
    | .inr _ => ∃ t, s.lexemes = spelled t ++ s'.lexemes

theorem reads_iterate {step : σ → Parser (σ ⊕ β)} {spelled : τ → List Lexeme}
    (h : ∀ x, Round (step x) spelled) (budget : Nat) (x : σ) :
    Reads (iterate step budget x) spelled := by
  induction budget generalizing x with
  | zero =>
      intro s a s' hrun
      exact absurd hrun (by simp [iterate, exhausted])
  | succ budget ih =>
      intro s a s' hrun
      obtain ⟨r, s₁, hstep, hrun⟩ := bind_eq_ok hrun
      have hround := h x hstep
      cases r with
      | inl y =>
          obtain ⟨t, ht⟩ := ih y hrun
          exact hround t _ ht
      | inr b =>
          obtain ⟨-, rfl⟩ := pure_eq_ok hrun
          exact hround

theorem reads_loop {step : σ → Parser (σ ⊕ β)} {spelled : τ → List Lexeme}
    (h : ∀ x, Round (step x) spelled) (x : σ) : Reads (loop step x) spelled :=
  fun _ _ _ hrun => reads_iterate h _ x hrun

theorem Reads.inScope {p : Parser α} {spelled : τ → List Lexeme} (h : Reads p spelled) :
    Reads (inScope p) spelled := by
  intro s a s' hrun
  unfold Parser.inScope at hrun
  split at hrun
  · next b t hp =>
      cases hrun
      have hlex := h hp
      rwa [State.lexemes_enter] at hlex
  · cases hrun

/-! ## Expressions -/

/-- Operands of a level, over a parser for the expressions inside parentheses. -/
def operandAt (nested : Parser Expr) : (level : Nat) → Parser Expr
  | 0 => unary (primary nested)
  | level + 1 => chain (operators level) (operandAt nested level)

theorem exists_operator {level : Nat} {l : Lexeme} {combine : Expr → Expr → Expr}
    (h : (operators level).ofLexeme? l = some combine) :
    ∃ op : Operator level, op.lexeme = l ∧ op.combine = combine := by
  obtain ⟨kind, text⟩ := l
  unfold Operators.ofLexeme? at h
  split at h
  · next hkind =>
      simp only at hkind
      exact ⟨⟨text, combine, h⟩, by rw [Operator.lexeme, hkind], rfl⟩
  · cases h

theorem round_chainStep {level : Nat} {operand : Parser Expr}
    (h : Reads operand fun t : Operand level => t.lexemes) (left : Expr) :
    Round (chainStep (operators level) operand left) fun t : Links level => t.lexemes := by
  intro s r s' hrun
  obtain ⟨o, s₁, ho, hrest⟩ := bind_eq_ok hrun
  rcases take?_eq_ok ho with ⟨rfl, rfl⟩ | ⟨combine, l, rfl, hl, hlex⟩
  · obtain ⟨rfl, rfl⟩ := pure_eq_ok hrest
    exact ⟨.nil, rfl⟩
  · obtain ⟨e, s₂, he, hend⟩ := bind_eq_ok hrest
    obtain ⟨rfl, rfl⟩ := pure_eq_ok hend
    intro t rest ht
    obtain ⟨op, rfl, -⟩ := exists_operator hl
    obtain ⟨operand, hoperand⟩ := h he
    exact ⟨.cons op operand t, by simp [hlex, hoperand, ht, Links.lexemes]⟩

theorem round_signStep (minuses : Nat) : Round (signStep minuses) (List.map Sign.lexeme) := by
  intro s r s' hrun
  obtain ⟨plus, s₁, hplus, hrest⟩ := bind_eq_ok hrun
  rcases accept_eq_ok hplus with ⟨rfl, hlex⟩ | ⟨rfl, rfl, -⟩
  · obtain ⟨rfl, rfl⟩ := pure_eq_ok hrest
    intro signs rest ht
    exact ⟨.plus :: signs, by rw [hlex, ht]; rfl⟩
  · obtain ⟨minus, s₂, hminus, hend⟩ := bind_eq_ok hrest
    rcases accept_eq_ok hminus with ⟨rfl, hlex⟩ | ⟨rfl, rfl, -⟩
    · obtain ⟨rfl, rfl⟩ := pure_eq_ok hend
      intro signs rest ht
      exact ⟨.minus :: signs, by rw [hlex, ht]; rfl⟩
    · obtain ⟨rfl, rfl⟩ := pure_eq_ok hend
      exact ⟨[], rfl⟩

/-- A separator was taken, or a closing parenthesis is ahead. -/
theorem separator_eq_ok {u : Unit} (h : separator s = .ok u s') :
    (s' = s ∧ s.lexemes.head? = some (.reserved ")")) ∨
      s.lexemes = .reserved "," :: s'.lexemes := by
  obtain ⟨b, t, hb, hrest⟩ := bind_eq_ok h
  obtain ⟨rfl, hhead⟩ := isAt_eq_ok hb
  cases b with
  | true =>
      obtain ⟨-, rfl⟩ := pure_eq_ok hrest
      exact .inl ⟨rfl, hhead.1 rfl⟩
  | false => exact .inr (expect_eq_ok hrest)

theorem args_eq_close {t : Args} {rest : List Lexeme}
    (h : (t.lexemes ++ rest).head? = some (.reserved ")")) : t = .close := by
  cases t with
  | close => rfl
  | last arg =>
      rw [Args.lexemes, List.append_assoc] at h
      exact absurd h (arg.head?_ne _ (by decide))
  | next arg more =>
      rw [Args.lexemes, List.append_assoc] at h
      exact absurd h (arg.head?_ne _ (by decide))

theorem round_argumentStep {nested : Parser Expr}
    (h : Reads nested fun t : Expression => t.lexemes) (args : List Expr) :
    Round (argumentStep nested args) Args.lexemes := by
  intro s r s' hrun
  obtain ⟨b, s₁, hb, hrest⟩ := bind_eq_ok hrun
  rcases accept_eq_ok hb with ⟨rfl, hlex⟩ | ⟨rfl, rfl, -⟩
  · obtain ⟨rfl, rfl⟩ := pure_eq_ok hrest
    exact ⟨.close, hlex⟩
  · obtain ⟨e, s₂, he, hthen⟩ := bind_eq_ok hrest
    obtain ⟨u, s₃, hsep, hend⟩ := bind_eq_ok hthen
    obtain ⟨rfl, rfl⟩ := pure_eq_ok hend
    obtain ⟨arg, harg⟩ := h he
    intro t rest ht
    rcases separator_eq_ok hsep with ⟨rfl, hhead⟩ | hcomma
    · rw [ht] at hhead
      obtain rfl := args_eq_close hhead
      exact ⟨.last arg, by rw [harg, ht]; simp [Args.lexemes]⟩
    · exact ⟨.next arg t, by rw [harg, hcomma, ht]; simp [Args.lexemes]⟩

theorem reads_unary {operand : Parser Expr} (h : Reads operand Primary.lexemes) :
    Reads (unary operand) fun t : Operand 0 => t.lexemes := by
  intro s e s' hrun
  obtain ⟨minuses, s₁, hsigns, hrest⟩ := bind_eq_ok hrun
  obtain ⟨e', s₂, he, hend⟩ := bind_eq_ok hrest
  obtain ⟨-, rfl⟩ := pure_eq_ok hend
  obtain ⟨signs, hsigns⟩ := reads_loop round_signStep 0 hsigns
  obtain ⟨t, ht⟩ := h he
  exact ⟨.unary signs t, by simp [hsigns, ht, Operand.lexemes]⟩

theorem reads_chain {level : Nat} {operand : Parser Expr}
    (h : Reads operand fun t : Operand level => t.lexemes) :
    Reads (chain (operators level) operand) fun t : Operand (level + 1) => t.lexemes := by
  intro s e s' hrun
  obtain ⟨first, s₁, hfirst, hrest⟩ := bind_eq_ok hrun
  obtain ⟨t, ht⟩ := h hfirst
  obtain ⟨links, hlinks⟩ := reads_loop (round_chainStep h) first hrest
  exact ⟨.chain t links, by simp [ht, hlinks, Operand.lexemes]⟩

theorem reads_call {nested : Parser Expr} (h : Reads nested fun t : Expression => t.lexemes) :
    Reads (call nested) Primary.lexemes := by
  intro s e s' hrun
  obtain ⟨callee, s₁, hcallee, hrest⟩ := bind_eq_ok hrun
  obtain ⟨u, s₂, hopen, hargs⟩ := bind_eq_ok hrest
  obtain ⟨args, s₃, hloop, hend⟩ := bind_eq_ok hargs
  obtain ⟨t, ht⟩ := reads_loop (round_argumentStep h) [] hloop
  split at hend
  · obtain ⟨-, rfl⟩ := pure_eq_ok hend
    exact ⟨.call callee.text t, by
      simp [identifier_eq_ok hcallee, expect_eq_ok hopen, ht, Primary.lexemes]⟩
  · cases hend

theorem numeral_eq_ok {e : Expr} (h : numeral s = .ok e s') :
    s.lexemes = s.current.toLexeme :: s'.lexemes := by
  obtain ⟨c, s₁, hc, htake⟩ := bind_eq_ok h
  cases hc
  obtain ⟨o, s₂, ho, hrest⟩ := bind_eq_ok htake
  rcases take?_eq_ok ho with ⟨rfl, rfl⟩ | ⟨a, l, rfl, -, hlex⟩
  · cases hrest
  · obtain ⟨-, rfl⟩ := pure_eq_ok hrest
    rw [State.current_toLexeme hlex, hlex]

theorem variableUse_eq_ok {e : Expr} (h : variableUse s = .ok e s') :
    ∃ name, s.lexemes = ⟨.ident, name⟩ :: s'.lexemes := by
  obtain ⟨name, s₁, hname, hrest⟩ := bind_eq_ok h
  obtain ⟨o, s₂, ho, hend⟩ := bind_eq_ok hrest
  obtain rfl : s₁ = s₂ := by
    cases ho
    rfl
  cases o with
  | none => cases hend
  | some id =>
      obtain ⟨-, rfl⟩ := pure_eq_ok hend
      exact ⟨name.text, identifier_eq_ok hname⟩

theorem reads_primary {nested : Parser Expr} (h : Reads nested fun t : Expression => t.lexemes) :
    Reads (primary nested) Primary.lexemes := by
  intro s e s' hrun
  obtain ⟨b, s₁, hb, hrest⟩ := bind_eq_ok hrun
  rcases accept_eq_ok hb with ⟨rfl, hlex⟩ | ⟨rfl, rfl, -⟩
  · obtain ⟨e', s₂, he, hthen⟩ := bind_eq_ok hrest
    obtain ⟨u, s₃, hclose, hend⟩ := bind_eq_ok hthen
    obtain ⟨-, rfl⟩ := pure_eq_ok hend
    obtain ⟨t, ht⟩ := h he
    exact ⟨.paren t, by simp [hlex, ht, expect_eq_ok hclose, Primary.lexemes]⟩
  · obtain ⟨c, s₂, hc, hkinds⟩ := bind_eq_ok hrest
    obtain ⟨rfl, rfl⟩ : s₁.current = c ∧ s₁ = s₂ := by
      cases hc
      exact ⟨rfl, rfl⟩
    cases hkind : s₁.current.kind with
    | num =>
        rw [hkind] at hkinds
        exact ⟨.num s₁.current.text, by
          rw [numeral_eq_ok hkinds, Primary.lexemes, ← hkind]
          rfl⟩
    | ident =>
        rw [hkind] at hkinds
        obtain ⟨f, s₃, hf, hend⟩ := bind_eq_ok hkinds
        cases hf
        split at hend
        · exact reads_call h hend
        · obtain ⟨name, hname⟩ := variableUse_eq_ok hend
          exact ⟨.name name, by simp [hname, Primary.lexemes]⟩
    | reserved =>
        rw [hkind] at hkinds
        cases hkinds
    | eof =>
        rw [hkind] at hkinds
        cases hkinds

theorem reads_operandAt {nested : Parser Expr} (h : Reads nested fun t : Expression => t.lexemes)
    (level : Nat) : Reads (operandAt nested level) fun t : Operand level => t.lexemes := by
  induction level with
  | zero => exact reads_unary (reads_primary h)
  | succ level ih => exact reads_chain ih

theorem reads_exprAt (n : Nat) : Reads (exprAt n) fun t : Expression => t.lexemes := by
  induction n with
  | zero =>
      intro s e s' hrun
      cases hrun
  | succ n ih => exact reads_operandAt ih 3

theorem reads_expr : Reads expr fun t : Expression => t.lexemes :=
  fun _ _ _ hrun => reads_exprAt _ hrun

/-! ## Statements -/

/-- A simple statement is read as an expression only if it is no assignment. -/
theorem simple_eq_ok {st : Stmt} (h : simple s = .ok st s') :
    ∃ t : Simple, s.lexemes = t.lexemes ++ s'.lexemes ∧ ∀ e, st = .expr e → t.right = none := by
  obtain ⟨c, s₁, hc, hleft⟩ := bind_eq_ok h
  cases hc
  obtain ⟨left, s₂, hexpr, hrest⟩ := bind_eq_ok hleft
  obtain ⟨l, hl⟩ := reads_expr hexpr
  obtain ⟨b, s₃, hb, hright⟩ := bind_eq_ok hrest
  rcases accept_eq_ok hb with ⟨rfl, hlex⟩ | ⟨rfl, rfl, -⟩
  · cases left with
    | var id =>
        obtain ⟨right, s₄, hexpr, hend⟩ := bind_eq_ok hright
        obtain ⟨rfl, rfl⟩ := pure_eq_ok hend
        obtain ⟨r, hr⟩ := reads_expr hexpr
        exact ⟨⟨l, some r⟩, by simp [hl, hlex, hr, Simple.lexemes, valueLexemes], nofun⟩
    | num => cases hright
    | binary => cases hright
    | call => cases hright
  · obtain ⟨rfl, rfl⟩ := pure_eq_ok hright
    exact ⟨⟨l, none⟩, by simp [hl, Simple.lexemes], fun _ _ => rfl⟩

theorem condition_eq_ok {start : Token} {st : Stmt} {e : Expr}
    (h : condition start st s = .ok e s') : s = s' ∧ st = .expr e := by
  cases st with
  | expr e' =>
      obtain ⟨rfl, rfl⟩ := pure_eq_ok h
      exact ⟨rfl, rfl⟩
  | assign => cases h
  | ret => cases h
  | block => cases h
  | branch => cases h
  | loop => cases h

/-- A simple statement that serves as a condition is an expression. -/
theorem condition_simple {start : Token} {st : Stmt} {e : Expr} {t : Simple}
    (h : condition start st s = .ok e s') (ht : ∀ e, st = .expr e → t.right = none) :
    s = s' ∧ t.lexemes = t.left.lexemes := by
  obtain ⟨rfl, hst⟩ := condition_eq_ok h
  exact ⟨rfl, by simp [Simple.lexemes, ht e hst]⟩

theorem declare_eq_ok {name : Token} {type : Ty} {id : VarId}
    (h : declare name type s = .ok id s') : s'.lexemes = s.lexemes := by
  unfold declare at h
  split at h
  · cases h
  · split at h
    · cases h
    · cases h
      rfl

theorem declaration_end {name : Token} {type : Ty} {value : Expr} {st : Stmt}
    (h : (declare name type >>= fun id => pure (.assign id value)) s = .ok st s') :
    s'.lexemes = s.lexemes := by
  obtain ⟨id, s₁, hdeclare, hend⟩ := bind_eq_ok h
  obtain ⟨-, rfl⟩ := pure_eq_ok hend
  exact declare_eq_ok hdeclare

theorem reads_declaration : Reads declaration Local.lexemes := by
  intro s st s' hrun
  obtain ⟨name, s₁, hname, hrest⟩ := bind_eq_ok hrun
  obtain ⟨b, s₂, hb, hkind⟩ := bind_eq_ok hrest
  rw [identifier_eq_ok hname]
  rcases accept_eq_ok hb with ⟨rfl, hlex⟩ | ⟨rfl, rfl, -⟩
  · obtain ⟨e, s₃, he, hend⟩ := bind_eq_ok hkind
    obtain ⟨t, ht⟩ := reads_expr he
    exact ⟨.inferred name.text t, by
      simp [hlex, ht, declaration_end hend, Local.lexemes, valueLexemes]⟩
  · obtain ⟨type, s₃, htype, hinit⟩ := bind_eq_ok hkind
    obtain ⟨b, s₄, hb, hvalue⟩ := bind_eq_ok hinit
    rcases accept_eq_ok hb with ⟨rfl, hlex⟩ | ⟨rfl, rfl, -⟩
    · obtain ⟨e, s₅, he, hend⟩ := bind_eq_ok hvalue
      obtain ⟨t, ht⟩ := reads_expr he
      exact ⟨.typed name.text (some t), by
        simp [typeName_eq_ok htype, hlex, ht, declaration_end hend, Local.lexemes, valueLexemes]⟩
    · exact ⟨.typed name.text none, by
        simp [typeName_eq_ok htype, declaration_end hvalue, Local.lexemes]⟩

theorem body_eq_close {t : Body} {rest : List Lexeme}
    (h : (t.lexemes ++ rest).head? = some (.reserved "\x7d")) : t = .close := by
  cases t with
  | close => rfl
  | skip more => exact absurd h (by simp [Body.lexemes])
  | last stmt =>
      rw [Body.lexemes, List.append_assoc] at h
      exact absurd h (stmt.head?_ne _ (by decide))
  | next stmt more =>
      rw [Body.lexemes, List.append_assoc] at h
      exact absurd h (stmt.head?_ne _ (by decide))

theorem round_bodyStep {stmt : Parser Stmt} (h : Reads stmt Statement.lexemes)
    (body : List Stmt) : Round (bodyStep stmt body) Body.lexemes := by
  intro s r s' hrun
  obtain ⟨b, s₁, hb, hrest⟩ := bind_eq_ok hrun
  rcases accept_eq_ok hb with ⟨rfl, hlex⟩ | ⟨rfl, rfl, -⟩
  · obtain ⟨rfl, rfl⟩ := pure_eq_ok hrest
    intro t rest ht
    exact ⟨.skip t, by rw [hlex, ht, Body.lexemes, List.cons_append]⟩
  · obtain ⟨b, s₂, hb, hthen⟩ := bind_eq_ok hrest
    rcases accept_eq_ok hb with ⟨rfl, hlex⟩ | ⟨rfl, rfl, -⟩
    · obtain ⟨rfl, rfl⟩ := pure_eq_ok hthen
      exact ⟨.close, hlex⟩
    · obtain ⟨st, s₃, hst, hlook⟩ := bind_eq_ok hthen
      obtain ⟨b, s₄, hb, hsep⟩ := bind_eq_ok hlook
      obtain ⟨rfl, hhead⟩ := isAt_eq_ok hb
      obtain ⟨stmt, hstmt⟩ := h hst
      cases b with
      | true =>
          obtain ⟨rfl, rfl⟩ := pure_eq_ok hsep
          intro t rest ht
          have hclose := hhead.1 rfl
          rw [ht] at hclose
          obtain rfl := body_eq_close hclose
          exact ⟨.last stmt, by simp [hstmt, ht, Body.lexemes]⟩
      | false =>
          obtain ⟨u, s₅, hexpect, hend⟩ := bind_eq_ok hsep
          obtain ⟨rfl, rfl⟩ := pure_eq_ok hend
          intro t rest ht
          exact ⟨.next stmt t, by simp [hstmt, expect_eq_ok hexpect, ht, Body.lexemes]⟩

/-- The lexemes of a block. -/
def blockLexemes (t : Body) : List Lexeme :=
  .reserved "\x7b" :: t.lexemes

theorem reads_body {stmt : Parser Stmt} (h : Reads stmt Statement.lexemes) :
    Reads (body stmt) blockLexemes := by
  intro s b s' hrun
  obtain ⟨u, s₁, hopen, hrest⟩ := bind_eq_ok hrun
  obtain ⟨t, ht⟩ := reads_loop (round_bodyStep h) [] hrest
  exact ⟨t, by simp [expect_eq_ok hopen, ht, blockLexemes]⟩

theorem reads_block {stmt : Parser Stmt} (h : Reads stmt Statement.lexemes) :
    Reads (block stmt) blockLexemes :=
  (reads_body h).inScope

theorem reads_branchHead : Reads branchHead
    fun t : Option Simple × Expression => initLexemes t.1 ++ t.2.lexemes := by
  intro s r s' hrun
  obtain ⟨start, s₁, hstart, hrest⟩ := bind_eq_ok hrun
  cases hstart
  obtain ⟨first, s₂, hfirst, hthen⟩ := bind_eq_ok hrest
  obtain ⟨t, ht, hright⟩ := simple_eq_ok hfirst
  obtain ⟨b, s₃, hb, hcond⟩ := bind_eq_ok hthen
  rcases accept_eq_ok hb with ⟨rfl, hlex⟩ | ⟨rfl, rfl, -⟩
  · obtain ⟨e, s₄, he, hend⟩ := bind_eq_ok hcond
    obtain ⟨-, rfl⟩ := pure_eq_ok hend
    obtain ⟨c, hc⟩ := reads_expr he
    exact ⟨(some t, c), by simp [ht, hlex, hc, initLexemes]⟩
  · obtain ⟨e, s₄, he, hend⟩ := bind_eq_ok hcond
    obtain ⟨-, rfl⟩ := pure_eq_ok hend
    obtain ⟨rfl, hleft⟩ := condition_simple he hright
    exact ⟨(none, t.left), by simp [ht, hleft, initLexemes]⟩

/-- A statement that begins with `if` is a conditional. -/
theorem exists_branch {t : Statement} {rest : List Lexeme}
    (h : (t.lexemes ++ rest).head? = some (.reserved "if")) : ∃ cases, t = .branch cases := by
  cases t with
  | branch cases => exact ⟨cases, rfl⟩
  | ret value => exact absurd h (by simp [Statement.lexemes])
  | declare decl => exact absurd h (by simp [Statement.lexemes])
  | loop head body => exact absurd h (by simp [Statement.lexemes])
  | block body => exact absurd h (by simp [Statement.lexemes])
  | simple stmt =>
      rw [Statement.lexemes] at h
      exact absurd h (stmt.head?_ne _ (by decide))

theorem reads_otherwise {stmt : Parser Stmt} (h : Reads stmt Statement.lexemes) :
    Reads (otherwise stmt) Otherwise.lexemes := by
  intro s r s' hrun
  obtain ⟨b, s₁, hb, hrest⟩ := bind_eq_ok hrun
  rcases accept_eq_ok hb with ⟨rfl, hlex⟩ | ⟨rfl, rfl, -⟩
  · obtain ⟨b, s₂, hb, hthen⟩ := bind_eq_ok hrest
    obtain ⟨rfl, hhead⟩ := isAt_eq_ok hb
    cases b with
    | true =>
        obtain ⟨st, s₃, hst, hend⟩ := bind_eq_ok hthen
        obtain ⟨-, rfl⟩ := pure_eq_ok hend
        obtain ⟨t, ht⟩ := h hst
        have hif := hhead.1 rfl
        rw [ht] at hif
        obtain ⟨cases, rfl⟩ := exists_branch hif
        exact ⟨.elseIf cases, by simp [hlex, ht, Otherwise.lexemes, Statement.lexemes]⟩
    | false =>
        obtain ⟨b, s₃, hblock, hend⟩ := bind_eq_ok hthen
        obtain ⟨-, rfl⟩ := pure_eq_ok hend
        obtain ⟨t, ht⟩ := reads_block h hblock
        exact ⟨.elseBlock t, by simp [hlex, ht, Otherwise.lexemes, blockLexemes]⟩
  · obtain ⟨-, rfl⟩ := pure_eq_ok hrest
    exact ⟨.none, by simp [Otherwise.lexemes]⟩

theorem reads_branch {stmt : Parser Stmt} (h : Reads stmt Statement.lexemes) :
    Reads (branch stmt) Conditional.lexemes := by
  apply Reads.inScope
  intro s r s' hrun
  obtain ⟨⟨init, cond⟩, s₁, hhead, hrest⟩ := bind_eq_ok hrun
  obtain ⟨b, s₂, hbody, hthen⟩ := bind_eq_ok hrest
  obtain ⟨o, s₃, hother, hend⟩ := bind_eq_ok hthen
  obtain ⟨-, rfl⟩ := pure_eq_ok hend
  obtain ⟨⟨i, c⟩, hc⟩ := reads_branchHead hhead
  obtain ⟨body, hb⟩ := reads_block h hbody
  obtain ⟨other, ho⟩ := reads_otherwise h hother
  exact ⟨.mk i c body other, by simp [hc, hb, ho, Conditional.lexemes, blockLexemes]⟩

/-- A part that is missing when the sign `text` is ahead. -/
def missingAt (text : String) (p : Parser α) : Parser (Option α) := do
  if ← isAt text then return none else return some (← p)

theorem missingAt_bind (text : String) (p : Parser α) (k : Option α → Parser β) :
    missingAt text p >>= k =
      (isAt text >>= fun b => if b then k none else p >>= fun a => k (some a)) := by
  unfold missingAt
  rw [bind_assoc]
  congr 1
  funext b
  cases b with
  | true => exact pure_bind none k
  | false =>
      show (p >>= fun a => pure (some a)) >>= k = _
      rw [bind_assoc]
      simp only [pure_bind]
      rfl

theorem loopClauses_eq (init : Option Stmt) : loopClauses init = (do
    expect ";"
    let cond ← missingAt ";" expr
    expect ";"
    let post ← missingAt "\x7b" simple
    return (init, cond, post)) := by
  simp only [missingAt_bind]
  rfl

theorem missingAt_eq_ok {p : Parser α} {spelled : τ → List Lexeme} {text : String}
    {o : Option α} (hp : Reads p spelled) (h : missingAt text p s = .ok o s') :
    ∃ t : Option τ, s.lexemes = t.elim [] spelled ++ s'.lexemes := by
  obtain ⟨b, s₁, hb, hrest⟩ := bind_eq_ok h
  obtain ⟨rfl, -⟩ := isAt_eq_ok hb
  cases b with
  | true =>
      obtain ⟨-, rfl⟩ := pure_eq_ok hrest
      exact ⟨none, rfl⟩
  | false =>
      obtain ⟨a, s₂, ha, hend⟩ := bind_eq_ok hrest
      obtain ⟨-, rfl⟩ := pure_eq_ok hend
      obtain ⟨t, ht⟩ := hp ha
      exact ⟨some t, ht⟩

theorem reads_simple : Reads simple Simple.lexemes := by
  intro s st s' hrun
  obtain ⟨t, ht, -⟩ := simple_eq_ok hrun
  exact ⟨t, ht⟩

/-- The clauses of a loop, behind the first of them. -/
theorem loopClauses_eq_ok {i : Option Stmt} {r} (init : Option Simple)
    (h : loopClauses i s = .ok r s') :
    ∃ t : LoopHead, init.elim [] Simple.lexemes ++ s.lexemes = t.lexemes ++ s'.lexemes := by
  rw [loopClauses_eq] at h
  obtain ⟨u, s₁, hfirst, h₁⟩ := bind_eq_ok h
  obtain ⟨cond, s₂, hcond, h₂⟩ := bind_eq_ok h₁
  obtain ⟨u, s₃, hsecond, h₃⟩ := bind_eq_ok h₂
  obtain ⟨post, s₄, hpost, hend⟩ := bind_eq_ok h₃
  obtain ⟨-, rfl⟩ := pure_eq_ok hend
  obtain ⟨c, hc⟩ := missingAt_eq_ok reads_expr hcond
  obtain ⟨p, hp⟩ := missingAt_eq_ok reads_simple hpost
  exact ⟨.clauses init c p, by
    simp [expect_eq_ok hfirst, hc, expect_eq_ok hsecond, hp, LoopHead.lexemes]⟩

theorem reads_loopHead : Reads loopHead LoopHead.lexemes := by
  intro s r s' hrun
  obtain ⟨b, s₁, hb, hrest⟩ := bind_eq_ok hrun
  obtain ⟨rfl, -⟩ := isAt_eq_ok hb
  cases b with
  | true =>
      obtain ⟨-, rfl⟩ := pure_eq_ok hrest
      exact ⟨.forever, rfl⟩
  | false =>
      obtain ⟨b, s₂, hb, hthen⟩ := bind_eq_ok hrest
      obtain ⟨rfl, -⟩ := isAt_eq_ok hb
      cases b with
      | true => exact loopClauses_eq_ok none hthen
      | false =>
          obtain ⟨start, s₃, hstart, hsimple⟩ := bind_eq_ok hthen
          cases hstart
          obtain ⟨first, s₄, hfirst, hlook⟩ := bind_eq_ok hsimple
          obtain ⟨t, ht, hright⟩ := simple_eq_ok hfirst
          obtain ⟨b, s₅, hb, hkind⟩ := bind_eq_ok hlook
          obtain ⟨rfl, -⟩ := isAt_eq_ok hb
          cases b with
          | true =>
              rw [ht]
              exact loopClauses_eq_ok (some t) hkind
          | false =>
              obtain ⟨e, s₆, he, hend⟩ := bind_eq_ok hkind
              obtain ⟨-, rfl⟩ := pure_eq_ok hend
              obtain ⟨rfl, hleft⟩ := condition_simple he hright
              exact ⟨.while t.left, by rw [ht, hleft, LoopHead.lexemes]⟩

theorem reads_repetition {stmt : Parser Stmt} (h : Reads stmt Statement.lexemes) :
    Reads (repetition stmt)
      fun t : LoopHead × Body => t.1.lexemes ++ blockLexemes t.2 := by
  apply Reads.inScope
  intro s r s' hrun
  obtain ⟨⟨init, cond, post⟩, s₁, hhead, hrest⟩ := bind_eq_ok hrun
  obtain ⟨b, s₂, hbody, hend⟩ := bind_eq_ok hrest
  obtain ⟨-, rfl⟩ := pure_eq_ok hend
  obtain ⟨head, hhead⟩ := reads_loopHead hhead
  obtain ⟨body, hbody⟩ := reads_block h hbody
  exact ⟨(head, body), by simp [hhead, hbody]⟩

theorem reads_statement {nested : Parser Stmt} (h : Reads nested Statement.lexemes) :
    Reads (statement nested) Statement.lexemes := by
  intro s r s' hrun
  obtain ⟨b, s₁, hb, hrun₁⟩ := bind_eq_ok hrun
  rcases accept_eq_ok hb with ⟨rfl, hlex⟩ | ⟨rfl, rfl, -⟩
  · obtain ⟨e, s₂, he, hend⟩ := bind_eq_ok hrun₁
    obtain ⟨-, rfl⟩ := pure_eq_ok hend
    obtain ⟨t, ht⟩ := reads_expr he
    exact ⟨.ret t, by simp [hlex, ht, Statement.lexemes]⟩
  obtain ⟨b, s₂, hb, hrun₂⟩ := bind_eq_ok hrun₁
  rcases accept_eq_ok hb with ⟨rfl, hlex⟩ | ⟨rfl, rfl, -⟩
  · obtain ⟨t, ht⟩ := reads_declaration hrun₂
    exact ⟨.declare t, by simp [hlex, ht, Statement.lexemes]⟩
  obtain ⟨b, s₃, hb, hrun₃⟩ := bind_eq_ok hrun₂
  rcases accept_eq_ok hb with ⟨rfl, hlex⟩ | ⟨rfl, rfl, -⟩
  · obtain ⟨t, ht⟩ := reads_branch h hrun₃
    exact ⟨.branch t, by simp [hlex, ht, Statement.lexemes]⟩
  obtain ⟨b, s₄, hb, hrun₄⟩ := bind_eq_ok hrun₃
  rcases accept_eq_ok hb with ⟨rfl, hlex⟩ | ⟨rfl, rfl, -⟩
  · obtain ⟨⟨head, body⟩, ht⟩ := reads_repetition h hrun₄
    exact ⟨.loop head body, by simp [hlex, ht, Statement.lexemes, blockLexemes]⟩
  obtain ⟨b, s₅, hb, hrun₅⟩ := bind_eq_ok hrun₄
  obtain ⟨rfl, -⟩ := isAt_eq_ok hb
  cases b with
  | true =>
      obtain ⟨body, s₆, hbody, hend⟩ := bind_eq_ok hrun₅
      obtain ⟨-, rfl⟩ := pure_eq_ok hend
      obtain ⟨t, ht⟩ := reads_block h hbody
      exact ⟨.block t, by simp [ht, Statement.lexemes, blockLexemes]⟩
  | false =>
      obtain ⟨t, ht⟩ := reads_simple hrun₅
      exact ⟨.simple t, by rw [ht, Statement.lexemes]⟩

theorem reads_stmtAt (n : Nat) : Reads (stmtAt n) Statement.lexemes := by
  induction n with
  | zero =>
      intro s r s' hrun
      cases hrun
  | succ n ih => exact reads_statement ih

theorem reads_stmt : Reads stmt Statement.lexemes :=
  fun _ _ _ hrun => reads_stmtAt _ hrun

/-! ## Functions and programs -/

theorem params_eq_close {t : Params} {rest : List Lexeme}
    (h : (t.lexemes ++ rest).head? = some (.reserved ")")) : t = .close := by
  cases t with
  | close => rfl
  | last name => exact absurd h (by simp [Params.lexemes])
  | next name more => exact absurd h (by simp [Params.lexemes])

theorem round_parameterStep (count : Nat) : Round (parameterStep count) Params.lexemes := by
  intro s r s' hrun
  obtain ⟨b, s₁, hb, hrest⟩ := bind_eq_ok hrun
  rcases accept_eq_ok hb with ⟨rfl, hlex⟩ | ⟨rfl, rfl, -⟩
  · obtain ⟨rfl, rfl⟩ := pure_eq_ok hrest
    exact ⟨.close, hlex⟩
  · obtain ⟨name, s₂, hname, h₁⟩ := bind_eq_ok hrest
    obtain ⟨type, s₃, htype, h₂⟩ := bind_eq_ok h₁
    split at h₂
    · obtain ⟨id, s₄, hdeclare, h₃⟩ := bind_eq_ok h₂
      obtain ⟨u, s₅, hsep, hend⟩ := bind_eq_ok h₃
      obtain ⟨rfl, rfl⟩ := pure_eq_ok hend
      have hlex : s₁.lexemes = ⟨.ident, name.text⟩ :: typeLexeme :: s₄.lexemes := by
        rw [identifier_eq_ok hname, typeName_eq_ok htype, declare_eq_ok hdeclare]
      intro t rest ht
      rcases separator_eq_ok hsep with ⟨rfl, hhead⟩ | hcomma
      · rw [ht] at hhead
        obtain rfl := params_eq_close hhead
        exact ⟨.last name.text, by rw [hlex, ht]; simp [Params.lexemes]⟩
      · exact ⟨.next name.text t, by rw [hlex, hcomma, ht]; simp [Params.lexemes]⟩
    · cases h₂

theorem reads_signatureAndBody : Reads signatureAndBody
    fun t : Params × Bool × Body => (Grammar.Function.mk "" t.1 t.2.1 t.2.2).signature := by
  apply Reads.inScope
  intro s r s' hrun
  obtain ⟨count, s₁, hparams, hrest⟩ := bind_eq_ok hrun
  obtain ⟨params, hp⟩ := reads_loop round_parameterStep 0 hparams
  obtain ⟨b, s₂, hb, hthen⟩ := bind_eq_ok hrest
  obtain ⟨rfl, -⟩ := isAt_eq_ok hb
  cases b with
  | true =>
      obtain ⟨body, s₃, hbody, hend⟩ := bind_eq_ok hthen
      obtain ⟨-, rfl⟩ := pure_eq_ok hend
      obtain ⟨t, ht⟩ := reads_body reads_stmt hbody
      exact ⟨(params, false, t), by simp [hp, ht, Grammar.Function.signature, blockLexemes]⟩
  | false =>
      obtain ⟨type, s₃, htype, h₁⟩ := bind_eq_ok hthen
      obtain ⟨body, s₄, hbody, hend⟩ := bind_eq_ok h₁
      obtain ⟨-, rfl⟩ := pure_eq_ok hend
      obtain ⟨t, ht⟩ := reads_body reads_stmt hbody
      exact ⟨(params, true, t), by
        simp [hp, typeName_eq_ok htype, ht, Grammar.Function.signature, blockLexemes]⟩

theorem reads_function : Reads function Grammar.Function.lexemes := by
  intro s r s' hrun
  obtain ⟨u, s₁, hfunc, h₁⟩ := bind_eq_ok hrun
  obtain ⟨name, s₂, hname, h₂⟩ := bind_eq_ok h₁
  obtain ⟨u, s₃, hopen, h₃⟩ := bind_eq_ok h₂
  obtain ⟨u, s₄, hstart, h₄⟩ := bind_eq_ok h₃
  obtain ⟨⟨count, body⟩, s₅, hsig, h₅⟩ := bind_eq_ok h₄
  have hlex₄ : s₄.lexemes = s₃.lexemes := by
    cases hstart
    rfl
  have hlex₅ : s'.lexemes = s₅.lexemes := by
    cases h₅
    rfl
  obtain ⟨⟨params, typed, t⟩, ht⟩ := reads_signatureAndBody hsig
  rw [hlex₄] at ht
  exact ⟨⟨name.text, params, typed, t⟩, by
    simp [expect_eq_ok hfunc, identifier_eq_ok hname, expect_eq_ok hopen, ht, hlex₅,
      Grammar.Function.lexemes, Grammar.Function.signature]⟩

theorem round_functionStep (functions : List Function) :
    Round (functionStep functions) functionLexemes := by
  intro s r s' hrun
  obtain ⟨b, s₁, hb, hrest⟩ := bind_eq_ok hrun
  obtain rfl : s = s₁ := by
    cases hb
    rfl
  cases b with
  | true =>
      obtain ⟨rfl, rfl⟩ := pure_eq_ok hrest
      exact ⟨[], rfl⟩
  | false =>
      obtain ⟨name, s₂, hname, h₁⟩ := bind_eq_ok hrest
      cases hname
      obtain ⟨f, s₃, hf, h₂⟩ := bind_eq_ok h₁
      split at h₂
      · cases h₂
      · obtain ⟨u, s₄, hsemi, hend⟩ := bind_eq_ok h₂
        obtain ⟨rfl, rfl⟩ := pure_eq_ok hend
        obtain ⟨t, ht⟩ := reads_function hf
        intro ts rest hts
        exact ⟨t :: ts, by
          rw [ht, expect_eq_ok hsemi, hts]
          simp [functionLexemes]⟩

/-- A repetition ends where its last round ends. -/
theorem iterate_end {step : σ → Parser (σ ⊕ β)} {Q : State → Prop}
    (h : ∀ x ⦃s b s'⦄, step x s = .ok (.inr b) s' → Q s') {budget : Nat} {x : σ} {b : β}
    (hrun : iterate step budget x s = .ok b s') : Q s' := by
  induction budget generalizing x s with
  | zero => cases hrun
  | succ budget ih =>
      obtain ⟨r, s₁, hstep, hrest⟩ := bind_eq_ok hrun
      cases r with
      | inl y => exact ih hrest
      | inr b =>
          obtain ⟨-, rfl⟩ := pure_eq_ok hrest
          exact h x hstep

theorem atEnd_eq_ok {b : Bool} (h : atEnd s = .ok b s') :
    s = s' ∧ (b = true ↔ s.lexemes = []) := by
  cases h
  exact ⟨rfl, by simp [State.lexemes]⟩

/-- The functions of a program end with the input. -/
theorem functionStep_end (functions : List Function) {fs : List Function}
    (h : functionStep functions s = .ok (.inr fs) s') : s'.lexemes = [] := by
  obtain ⟨b, s₁, hb, hrest⟩ := bind_eq_ok h
  obtain ⟨rfl, hempty⟩ := atEnd_eq_ok hb
  cases b with
  | true =>
      obtain ⟨-, rfl⟩ := pure_eq_ok hrest
      exact hempty.1 rfl
  | false =>
      obtain ⟨name, s₂, hname, h₁⟩ := bind_eq_ok hrest
      obtain ⟨f, s₃, hf, h₂⟩ := bind_eq_ok h₁
      split at h₂
      · cases h₂
      · obtain ⟨u, s₄, hsemi, hend⟩ := bind_eq_ok h₂
        obtain ⟨hne, -⟩ := pure_eq_ok hend
        cases hne

theorem program_eq_ok {p : Program} (h : program s = .ok p s') :
    ∃ t : Grammar.Program, s.lexemes = functionLexemes t.functions := by
  obtain ⟨b, s₁, hb, hrest⟩ := bind_eq_ok h
  obtain ⟨rfl, hempty⟩ := atEnd_eq_ok hb
  cases b with
  | true =>
      obtain ⟨t, s₂, -, hend⟩ := bind_eq_ok hrest
      cases hend
  | false =>
      obtain ⟨functions, s₂, hloop, hend⟩ := bind_eq_ok hrest
      obtain ⟨-, rfl⟩ := pure_eq_ok hend
      obtain ⟨ts, hts⟩ := reads_loop round_functionStep [] hloop
      have hnil : s₂.lexemes = [] :=
        iterate_end (Q := fun t => t.lexemes = []) (fun fs _ _ _ => functionStep_end fs) hloop
      rw [hnil, List.append_nil] at hts
      cases ts with
      | nil => exact absurd (hempty.2 hts) (by simp)
      | cons t ts => exact ⟨⟨t, ts⟩, hts⟩

end Parser

/-- **Tokens that have a program spell a sentence.** -/
theorem exists_spells {tokens : List Token} {p : Program}
    (h : (Program.parse tokens).result = .ok p) : ∃ t, Spells tokens t := by
  unfold Program.parse Traced.ofResult at h
  split at h
  · next a s hrun => exact Parser.program_eq_ok hrun
  · cases h

end MicroGo
