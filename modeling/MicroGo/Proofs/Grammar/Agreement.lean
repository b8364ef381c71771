import MicroGo.Proofs.Grammar.Reading

/-!
# A sentence is read as what it means

The converse of reading: in front of a sentence, a parser does what elaboration says.  If the tree
elaborates, the parser gives the same result, knows the same names afterwards and stops behind the
sentence; if the tree breaks a rule, the parser complains about that rule.  `Agrees` is this
relation between the two outcomes.

## What follows a sentence

A parser takes as much as it can, so what follows a sentence must not continue it.  Behind an
operand of some level this is a lexeme that is no operator of a lower level and no opening
parenthesis (`Ends`).  In a program every expression is followed by a sign of its surroundings,
which is neither.

## Budgets

Reading is bounded by the number of lexemes ahead.  Each level of nesting and each round of a
repetition takes one of them, so a bound that is enough at the start stays enough.
-/

namespace MicroGo

open Grammar

namespace Parser

variable {α β σ : Type} {s : State} {rest : List Lexeme}

/-- The outcome `r` of a parser is what elaboration says, and `rest` is then ahead. -/
def Agrees (rest : List Lexeme) (e : Except Complaint (α × Names))
    (r : EStateM.Result Failure State α) : Prop :=
  match e with
  | .ok (a, names) => ∃ s, r = .ok a s ∧ s.lexemes = rest ∧ s.names = names
  | .error c => ∃ pos s, r = .error ⟨c, pos⟩ s

theorem agrees_pure {a : α} (h : s.lexemes = rest) :
    Agrees rest ((pure a : Elaboration α) s.names) ((pure a : Parser α) s) :=
  ⟨s, rfl, h, rfl⟩

theorem bind_of_ok {p : Parser α} {g : α → Parser β} {a : α} {t : State} (h : p s = .ok a t) :
    (p >>= g) s = g a t := by
  show EStateM.bind p g s = _
  rw [EStateM.bind, h]

theorem bind_of_error {p : Parser α} {g : α → Parser β} {e : Failure} {t : State}
    (h : p s = .error e t) : (p >>= g) s = .error e t := by
  show EStateM.bind p g s = _
  rw [EStateM.bind, h]

theorem bind_of_eq {p q : Parser α} {g : α → Parser β} (h : p s = q s) :
    (p >>= g) s = (q >>= g) s := by
  show EStateM.bind p g s = EStateM.bind q g s
  rw [EStateM.bind, EStateM.bind, h]

/-- One after the other. -/
theorem Agrees.bind {mid : List Lexeme} {x : Elaboration α} {f : α → Elaboration β} {p : Parser α}
    {g : α → Parser β} (h : Agrees mid (x s.names) (p s))
    (hnext : ∀ a t, t.lexemes = mid → Agrees rest (f a t.names) (g a t)) :
    Agrees rest ((x >>= f) s.names) ((p >>= g) s) := by
  show Agrees rest (x s.names >>= fun r => f r.1 r.2) _
  cases hx : x s.names with
  | ok r =>
      rw [hx] at h
      obtain ⟨t, hp, hlex, hnames⟩ := h
      rw [bind_of_ok hp]
      have hf := hnext r.1 t hlex
      rw [hnames] at hf
      exact hf
  | error c =>
      rw [hx] at h
      obtain ⟨pos, t, hp⟩ := h
      exact ⟨pos, t, bind_of_error hp⟩

/-- A step that only takes or looks at tokens. -/
theorem Agrees.after {x : Elaboration β} {p : Parser α} {g : α → Parser β} {a : α} {t : State}
    (h : p s = .ok a t) (hnames : t.names = s.names) (hnext : Agrees rest (x t.names) (g a t)) :
    Agrees rest (x s.names) ((p >>= g) s) := by
  rw [bind_of_ok h, ← hnames]
  exact hnext

theorem Agrees.inScope {x : Elaboration α} {p : Parser α}
    (h : Agrees rest (x s.enter.names) (p s.enter)) :
    Agrees rest (Grammar.inScope x s.names) (Parser.inScope p s) := by
  unfold Grammar.inScope Parser.inScope
  rw [← State.names_enter]
  cases hx : x s.enter.names with
  | ok r =>
      rw [hx] at h
      obtain ⟨t, hp, hlex, hnames⟩ := h
      rw [hp]
      exact ⟨t.leave, rfl, hlex, by rw [State.names_leave, hnames]⟩
  | error c =>
      rw [hx] at h
      obtain ⟨pos, t, hp⟩ := h
      rw [hp]
      exact ⟨pos, t.leave, rfl⟩

/-! ## Taking the lexeme that is ahead -/

theorem current_eq (s : State) : current s = .ok s.current s := rfl

theorem expect_of_cons {text : String} (h : s.lexemes = .reserved text :: rest) :
    expect text s = .ok () s.next := by
  rw [expect, bind_of_ok (accept_of_cons h)]
  rfl

theorem lexemes_next_of_cons {l : Lexeme} (h : s.lexemes = l :: rest) : s.next.lexemes = rest := by
  rw [State.lexemes_next, h, List.tail_cons]

theorem identifier_of_cons {name : String} (h : s.lexemes = ⟨.ident, name⟩ :: rest) :
    identifier s = .ok s.current s.next ∧ s.current.text = name := by
  have htake : take? (fun l => if l.kind = .ident then some () else none) s =
      .ok (some ()) s.next := by
    rw [take?_eq, h]
    rfl
  refine ⟨?_, by rw [State.current_toLexeme h]⟩
  rw [identifier, bind_of_ok (current_eq s), bind_of_ok htake]
  rfl

theorem typeName_of_cons (h : s.lexemes = typeLexeme :: rest) :
    typeName s = .ok .int s.next := by
  have htake : take? (fun l => if l.kind = .ident then Ty.ofName? l.text else none) s =
      .ok (some .int) s.next := by
    rw [take?_eq, h]
    rfl
  rw [typeName, bind_of_ok htake]
  rfl

/-! ## Repetitions -/

theorem iterate_inl {step : σ → Parser (σ ⊕ β)} {x y : σ} {t : State} (budget : Nat)
    (h : step x s = .ok (.inl y) t) :
    iterate step (budget + 1) x s = iterate step budget y t := by
  rw [iterate, bind_of_ok h]

theorem iterate_inr {step : σ → Parser (σ ⊕ β)} {x : σ} {b : β} {t : State} (budget : Nat)
    (h : step x s = .ok (.inr b) t) : iterate step (budget + 1) x s = .ok b t := by
  rw [iterate, bind_of_ok h]
  rfl

/-! ## What follows an operand -/

/-- What is ahead does not continue an operand of the level. -/
def Ends (level : Nat) (rest : List Lexeme) : Prop :=
  ∃ l, rest.head? = some l ∧ l.text ≠ "(" ∧
    ∀ lower < level, (operators lower).ofLexeme? l = none

theorem Ends.mono {level lower : Nat} (h : Ends level rest) (hle : lower ≤ level) :
    Ends lower rest := by
  obtain ⟨l, hl, htext, hops⟩ := h
  exact ⟨l, hl, htext, fun k hk => hops k (by omega)⟩

/-- An operator ends an operand of its level. -/
theorem ends_operator {level : Nat} (op : Operator level) (rest : List Lexeme) :
    Ends level (op.lexeme :: rest) :=
  ⟨op.lexeme, rfl, op.text_ne, fun _ hk => op.lookup_lower hk⟩

theorem ends_links {level : Nat} (t : Links level) (h : Ends (level + 1) rest) :
    Ends level (t.lexemes ++ rest) := by
  cases t with
  | nil => exact h.mono (by omega)
  | cons op operand more => exact ends_operator op _

/-- The signs that stand behind an expression are no operators. -/
theorem ends_of_mem {text : String}
    (h : text ∈ [")", ",", ";", "=", "\x7b", "\x7d"]) (rest : List Lexeme) :
    Ends 3 (.reserved text :: rest) := by
  have htexts : ∀ text ∈ [")", ",", ";", "=", "\x7b", "\x7d"],
      text ≠ "(" ∧ ∀ lower < 3, text ∉ operatorTexts lower := by decide
  obtain ⟨hne, hops⟩ := htexts text h
  exact ⟨_, rfl, hne, fun lower hlower => lookup_operators_eq_none (hops lower hlower)⟩

/-! ## Signs and primaries -/

theorem signStep_plus (minuses : Nat) (h : s.lexemes = .reserved "+" :: rest) :
    signStep minuses s = .ok (.inl minuses) s.next := by
  rw [signStep, bind_of_ok (accept_of_cons h)]
  rfl

theorem signStep_minus (minuses : Nat) (h : s.lexemes = .reserved "-" :: rest) :
    signStep minuses s = .ok (.inl (minuses + 1)) s.next := by
  have hplus : accept "+" s = .ok false s := accept_of_ne (by simp [h])
  rw [signStep, bind_of_ok hplus, if_neg (by decide), bind_of_ok (accept_of_cons h)]
  rfl

theorem signStep_end (minuses : Nat) (hplus : s.lexemes.head? ≠ some (.reserved "+"))
    (hminus : s.lexemes.head? ≠ some (.reserved "-")) :
    signStep minuses s = .ok (.inr minuses) s := by
  rw [signStep, bind_of_ok (accept_of_ne hplus), if_neg (by decide),
    bind_of_ok (accept_of_ne hminus)]
  rfl

/-- Signs are taken up to the operand, and the minus signs among them counted. -/
theorem iterate_signs (signs : List Sign) (minuses budget : Nat) {s : State}
    (hlex : s.lexemes = signs.map Sign.lexeme ++ rest) (hbudget : signs.length ≤ budget)
    (hplus : rest.head? ≠ some (.reserved "+")) (hminus : rest.head? ≠ some (.reserved "-")) :
    ∃ t, iterate signStep (budget + 1) minuses s = .ok (minuses + signs.count .minus) t ∧
      t.lexemes = rest ∧ t.names = s.names := by
  induction signs generalizing s minuses budget with
  | nil =>
      simp only [List.map_nil, List.nil_append] at hlex
      rw [iterate_inr budget (signStep_end minuses (by rwa [hlex]) (by rwa [hlex]))]
      exact ⟨s, rfl, hlex, rfl⟩
  | cons sign signs ih =>
      rw [List.length_cons] at hbudget
      obtain ⟨budget, rfl⟩ : ∃ n, budget = n + 1 := ⟨budget - 1, by omega⟩
      rw [List.map_cons, List.cons_append] at hlex
      have hnext := lexemes_next_of_cons hlex
      cases sign with
      | plus =>
          obtain ⟨t, hrun, ht, hnames⟩ := ih minuses budget hnext (by omega)
          exact ⟨t, by rw [iterate_inl _ (signStep_plus minuses hlex), hrun]; simp, ht, hnames⟩
      | minus =>
          obtain ⟨t, hrun, ht, hnames⟩ := ih (minuses + 1) budget hnext (by omega)
          refine ⟨t, ?_, ht, hnames⟩
          rw [iterate_inl _ (signStep_minus minuses hlex), hrun, List.count_cons_self]
          congr 1
          omega

theorem accept_paren_of_kind {l : Lexeme} (h : s.lexemes = l :: rest) (hl : l.kind ≠ .reserved) :
    accept "(" s = .ok false s := by
  apply accept_of_ne
  rw [h]
  rintro ⟨⟩
  exact hl rfl

theorem agrees_numeral {text : String} (h : s.lexemes = ⟨.num, text⟩ :: rest) :
    Agrees rest (Grammar.lookup (fun scopes => (Primary.num text).elaborate scopes) s.names)
      (numeral s) := by
  have hcurrent : s.current.toLexeme = ⟨.num, text⟩ := State.current_toLexeme h
  have htake := take?_eq (fun l => Numeral.read? l.text) s
  rw [h] at htake
  simp only [List.head?_cons, Option.bind_some] at htake
  rw [numeral, bind_of_ok (current_eq s)]
  unfold Grammar.lookup Primary.elaborate
  cases hread : Numeral.read? text with
  | some value =>
      rw [hread] at htake
      rw [bind_of_ok htake]
      exact ⟨s.next, rfl, lexemes_next_of_cons h, rfl⟩
  | none =>
      rw [hread] at htake
      rw [bind_of_ok htake]
      exact ⟨s.current.pos, s, by simp only [reject, hcurrent]⟩

theorem agrees_variableUse {name : String} (h : s.lexemes = ⟨.ident, name⟩ :: rest) :
    Agrees rest (Grammar.lookup (fun scopes => (Primary.name name).elaborate scopes) s.names)
      (variableUse s) := by
  obtain ⟨hident, htext⟩ := identifier_of_cons h
  have hresolve : resolve s.current.text s.next = .ok (s.scopes.find? name) s.next := by
    rw [htext]
    rfl
  rw [variableUse, bind_of_ok hident, bind_of_ok hresolve]
  show Agrees rest ((Primary.elaborate s.scopes (.name name)).map (·, s.names)) _
  cases hfind : s.scopes.find? name with
  | some id =>
      rw [Primary.elaborate_of_find?_eq_some hfind]
      exact ⟨s.next, rfl, lexemes_next_of_cons h, rfl⟩
  | none =>
      rw [Primary.elaborate_of_find?_eq_none hfind]
      exact ⟨s.current.pos, s.next, by simp only [reject, htext]⟩

/-! ## Chains -/

theorem agrees_unary {operand : Parser Expr} (signs : List Sign) (t : Primary)
    (hlex : s.lexemes = signs.map Sign.lexeme ++ (t.lexemes ++ rest))
    (h : ∀ u : State, u.lexemes = t.lexemes ++ rest →
      Agrees rest (Grammar.lookup (fun scopes => t.elaborate scopes) u.names) (operand u)) :
    Agrees rest (Grammar.lookup (fun scopes => (Operand.unary signs t).elaborate scopes) s.names)
      (unary operand s) := by
  have hne : ∀ text, text = "+" ∨ text = "-" →
      (t.lexemes ++ rest).head? ≠ some (.reserved text) := by
    rintro text (rfl | rfl) <;> cases t <;> simp [Primary.lexemes]
  have hbudget : signs.length ≤ s.ahead.length := by
    rw [← State.length_lexemes, hlex]
    simp
  obtain ⟨u, hsigns, hu, hnames⟩ :=
    iterate_signs signs 0 s.ahead.length hlex hbudget (hne _ (.inl rfl)) (hne _ (.inr rfl))
  rw [Nat.zero_add] at hsigns
  rw [lookup_unary]
  refine Agrees.after (p := loop signStep 0) hsigns hnames ?_
  exact (h u hu).bind fun e v hv => agrees_pure hv

theorem chainStep_end {level : Nat} {operand : Parser Expr} (left : Expr)
    (h : Ends (level + 1) s.lexemes) :
    chainStep (operators level) operand left s = .ok (.inr left) s := by
  obtain ⟨l, hl, -, hops⟩ := h
  have htake : take? (operators level).ofLexeme? s = .ok none s := by
    rw [take?_eq, hl, Option.bind_some, hops level (by omega)]
  rw [chainStep, bind_of_ok htake]
  rfl

theorem take?_operator {level : Nat} (op : Operator level) (h : s.lexemes = op.lexeme :: rest) :
    take? (operators level).ofLexeme? s = .ok (some op.combine) s.next := by
  have hop : (operators level).ofLexeme? op.lexeme = some op.combine := op.listed
  rw [take?_eq, h, List.head?_cons, Option.bind_some, hop]

/-- One link of a chain, and the rest of the chain behind it. -/
theorem agrees_link {level budget : Nat} {parser : Parser Expr} (op : Operator level)
    (operand : Operand level) (links : Links level) (left : Expr)
    (hlex : s.lexemes = op.lexeme :: (operand.lexemes ++ (links.lexemes ++ rest)))
    (hoperand : Agrees (links.lexemes ++ rest)
      (Grammar.lookup (fun scopes => operand.elaborate scopes) s.next.names) (parser s.next))
    (hlinks : ∀ e u, u.lexemes = links.lexemes ++ rest → Agrees rest
      (Grammar.lookup (fun scopes => links.elaborate scopes (op.combine left e)) u.names)
      (iterate (chainStep (operators level) parser) budget (op.combine left e) u)) :
    Agrees rest
      (Grammar.lookup (fun scopes => (Links.cons op operand links).elaborate scopes left) s.names)
      (iterate (chainStep (operators level) parser) (budget + 1) left s) := by
  rw [lookup_links, iterate, chainStep, bind_assoc]
  refine Agrees.after (take?_operator op hlex) (State.names_next s) ?_
  simp only [bind_assoc, pure_bind]
  exact hoperand.bind hlinks

/-! ## Arguments -/

theorem separator_close (h : s.lexemes = .reserved ")" :: rest) : separator s = .ok () s := by
  rw [separator, bind_of_ok (isAt_of_cons h)]
  rfl

theorem separator_comma (h : s.lexemes = .reserved "," :: rest) : separator s = .ok () s.next := by
  have hne : isAt ")" s = .ok false s := isAt_of_ne (by simp [h])
  rw [separator, bind_of_ok hne]
  exact expect_of_cons h

theorem argumentStep_close {nested : Parser Expr} (args : List Expr)
    (h : s.lexemes = .reserved ")" :: rest) :
    argumentStep nested args s = .ok (.inr args) s.next := by
  rw [argumentStep, bind_of_ok (accept_of_cons h)]
  rfl

theorem iterate_argument {nested : Parser Expr} (budget : Nat) (args : List Expr)
    (h : s.lexemes.head? ≠ some (.reserved ")")) :
    iterate (argumentStep nested) (budget + 1) args s =
      (nested >>= fun arg => separator >>= fun _ =>
        iterate (argumentStep nested) budget (args ++ [arg])) s := by
  rw [iterate, argumentStep, bind_assoc, bind_of_ok (accept_of_ne h), if_neg (by decide)]
  simp only [bind_assoc, pure_bind]

/-- The arguments behind those that were read before. -/
def argsBehind (args : List Expr) (t : Args) : Elaboration (List Expr) :=
  Grammar.lookup fun scopes => (args ++ ·) <$> t.elaborate scopes

theorem argsBehind_nil (t : Args) :
    argsBehind [] t = Grammar.lookup fun scopes => t.elaborate scopes := by
  unfold argsBehind
  congr 1
  funext scopes
  cases t.elaborate scopes <;> rfl

theorem argsBehind_close (args : List Expr) : argsBehind args .close = pure args := by
  funext names
  show Except.ok (args ++ [], names) = Except.ok (args, names)
  rw [List.append_nil]

theorem argsBehind_last (args : List Expr) (arg : Expression) :
    argsBehind args (.last arg) = (arg.resolve >>= fun e => pure (args ++ [e])) := by
  refine Eq.trans ?_ (lookup_bind (fun scopes => arg.elaborate scopes) fun e _ =>
    pure (args ++ [e]))
  unfold argsBehind
  congr 1
  funext scopes
  rw [Args.elaborate]
  cases arg.elaborate scopes <;> rfl

theorem argsBehind_next (args : List Expr) (arg : Expression) (more : Args) :
    argsBehind args (.next arg more) =
      (arg.resolve >>= fun e => argsBehind (args ++ [e]) more) := by
  refine Eq.trans ?_ (lookup_bind (fun scopes => arg.elaborate scopes) fun e scopes =>
    (args ++ [e] ++ ·) <$> more.elaborate scopes)
  unfold argsBehind
  congr 1
  funext scopes
  rw [Args.elaborate]
  cases arg.elaborate scopes with
  | error c => rfl
  | ok e =>
      cases more.elaborate scopes with
      | error c => rfl
      | ok es =>
          show Except.ok (args ++ e :: es) = Except.ok (args ++ [e] ++ es)
          rw [List.append_assoc, List.singleton_append]

theorem call_eq_of_ident {nested : Parser Expr} {callee : String}
    (h : s.lexemes = ⟨.ident, callee⟩ :: .reserved "(" :: rest) :
    primary nested s = (loop (argumentStep nested) [] >>= fun args =>
      if args.length ≤ maxArguments then pure (.call callee args)
      else reject (.tooManyArguments callee args.length) s.current) s.next.next := by
  obtain ⟨hident, htext⟩ := identifier_of_cons h
  have hnext := lexemes_next_of_cons h
  have hfollowing : s.following.text = "(" := by rw [State.following_toLexeme h]
  have hkind : s.current.kind = .ident := by rw [State.current_toLexeme h]
  rw [primary, bind_of_ok (accept_paren_of_kind h (by simp)), if_neg (by decide),
    bind_of_ok (current_eq s), hkind]
  show (following >>= fun f => if f.text = "(" then call nested else variableUse) s = _
  have hfollow : following s = .ok s.following s := rfl
  rw [bind_of_ok hfollow, if_pos hfollowing, call, bind_of_ok hident, htext,
    bind_of_ok (expect_of_cons hnext)]

theorem primary_num {nested : Parser Expr} {text : String} (h : s.lexemes = ⟨.num, text⟩ :: rest) :
    primary nested s = numeral s := by
  have hkind : s.current.kind = .num := by rw [State.current_toLexeme h]
  rw [primary, bind_of_ok (accept_paren_of_kind h (by simp)), if_neg (by decide),
    bind_of_ok (current_eq s), hkind]

theorem primary_of_following {nested : Parser Expr} {name : String}
    (h : s.lexemes = ⟨.ident, name⟩ :: rest) (hfollowing : s.following.text ≠ "(") :
    primary nested s = variableUse s := by
  have hkind : s.current.kind = .ident := by rw [State.current_toLexeme h]
  have hfollow : following s = .ok s.following s := rfl
  rw [primary, bind_of_ok (accept_paren_of_kind h (by simp)), if_neg (by decide),
    bind_of_ok (current_eq s), hkind]
  show (following >>= fun f => if f.text = "(" then call nested else variableUse) s = _
  rw [bind_of_ok hfollow, if_neg hfollowing]

theorem primary_name {nested : Parser Expr} {name : String}
    (h : s.lexemes = ⟨.ident, name⟩ :: rest) (hrest : Ends 0 rest) :
    primary nested s = variableUse s := by
  obtain ⟨l, hl, htext, -⟩ := hrest
  obtain ⟨ls, rfl⟩ := List.head?_eq_some_iff.1 hl
  exact primary_of_following h (by rwa [State.following_toLexeme h])

theorem agrees_paren {nested : Parser Expr} {inner : Expression}
    (hlex : s.lexemes = .reserved "(" :: (inner.lexemes ++ ([.reserved ")"] ++ rest)))
    (hinner : Agrees ([.reserved ")"] ++ rest) (inner.resolve s.next.names) (nested s.next)) :
    Agrees rest (Grammar.lookup (fun scopes => (Primary.paren inner).elaborate scopes) s.names)
      (primary nested s) := by
  rw [primary]
  refine Agrees.after (accept_of_cons hlex) (State.names_next s) ?_
  have hresolve : Grammar.lookup (fun scopes => (Primary.paren inner).elaborate scopes) =
      (inner.resolve >>= pure) := by
    rw [bind_pure]
    rfl
  rw [hresolve]
  refine hinner.bind fun e u hu => ?_
  refine Agrees.after (expect_of_cons hu) (State.names_next u) ?_
  exact agrees_pure (lexemes_next_of_cons hu)

/-! ## Expressions -/

mutual

/-- An operand is read as what it means. -/
theorem agrees_operand : ∀ {level : Nat} (t : Operand level) ⦃n : Nat⦄ ⦃s : State⦄
    ⦃rest : List Lexeme⦄, s.lexemes = t.lexemes ++ rest → s.lexemes.length ≤ n → Ends level rest →
    Agrees rest (Grammar.lookup (fun scopes => t.elaborate scopes) s.names)
      (operandAt (exprAt n) level s)
  | _, .unary signs t => by
      intro n s rest hlex hn hrest
      rw [Operand.lexemes, List.append_assoc] at hlex
      refine agrees_unary signs t hlex fun u hu => ?_
      have hshort : u.lexemes.length ≤ n := by
        rw [hlex, List.length_append, ← hu] at hn
        omega
      exact agrees_primary t hu hshort hrest
  | _, .chain first links => by
      intro n s rest hlex hn hrest
      rw [Operand.lexemes, List.append_assoc] at hlex
      rw [lookup_chain]
      refine (agrees_operand first hlex hn (ends_links links hrest)).bind fun e u hu => ?_
      have hshort : u.lexemes.length ≤ n := by
        rw [hlex, List.length_append, ← hu] at hn
        omega
      exact agrees_links links e hu hshort (by rw [State.length_lexemes]; omega) hrest

/-- The rest of a chain is read as what it means. -/
theorem agrees_links : ∀ {level : Nat} (t : Links level) (left : Expr) ⦃n budget : Nat⦄
    ⦃s : State⦄ ⦃rest : List Lexeme⦄, s.lexemes = t.lexemes ++ rest → s.lexemes.length ≤ n →
    s.lexemes.length < budget → Ends (level + 1) rest →
    Agrees rest (Grammar.lookup (fun scopes => t.elaborate scopes left) s.names)
      (iterate (chainStep (operators level) (operandAt (exprAt n) level)) budget left s)
  | _, .nil => by
      intro left n budget s rest hlex hn hbudget hrest
      obtain ⟨budget, rfl⟩ : ∃ m, budget = m + 1 := ⟨budget - 1, by omega⟩
      rw [Links.lexemes, List.nil_append] at hlex
      rw [iterate_inr budget (chainStep_end left (by rwa [hlex]))]
      exact ⟨s, rfl, hlex, rfl⟩
  | _, .cons op operand links => by
      intro left n budget s rest hlex hn hbudget hrest
      obtain ⟨budget, rfl⟩ : ∃ m, budget = m + 1 := ⟨budget - 1, by omega⟩
      rw [Links.lexemes, List.cons_append, List.append_assoc] at hlex
      have hnext := lexemes_next_of_cons hlex
      rw [hlex, List.length_cons, ← hnext] at hn hbudget
      refine agrees_link op operand links left hlex
        (agrees_operand operand hnext (by omega) (ends_links links hrest)) fun e u hu => ?_
      rw [hnext, List.length_append, ← hu] at hn hbudget
      exact agrees_links links _ hu (by omega) (by omega) hrest

/-- A primary is read as what it means. -/
theorem agrees_primary : ∀ (t : Primary) ⦃n : Nat⦄ ⦃s : State⦄ ⦃rest : List Lexeme⦄,
    s.lexemes = t.lexemes ++ rest → s.lexemes.length ≤ n → Ends 0 rest →
    Agrees rest (Grammar.lookup (fun scopes => t.elaborate scopes) s.names)
      (primary (exprAt n) s)
  | .num text => by
      intro n s rest hlex hn hrest
      rw [primary_num hlex]
      exact agrees_numeral hlex
  | .name name => by
      intro n s rest hlex hn hrest
      rw [primary_name hlex hrest]
      exact agrees_variableUse hlex
  | .call callee args => by
      intro n s rest hlex hn hrest
      rw [Primary.lexemes, List.cons_append, List.cons_append] at hlex
      have hnext := lexemes_next_of_cons (lexemes_next_of_cons hlex)
      rw [call_eq_of_ident hlex, lookup_call, ← argsBehind_nil]
      rw [hlex, List.length_cons, List.length_cons, ← hnext] at hn
      refine Agrees.bind (s := s.next.next)
        (agrees_args args [] hnext (by omega) (by rw [State.length_lexemes]; omega)) ?_
      intro es u hu
      split
      · exact agrees_pure hu
      · exact ⟨s.current.pos, u, rfl⟩
  | .paren inner => by
      intro n s rest hlex hn hrest
      rw [Primary.lexemes, List.cons_append, List.append_assoc] at hlex
      have hnext := lexemes_next_of_cons hlex
      rw [hlex, List.length_cons, ← hnext] at hn
      obtain ⟨n, rfl⟩ : ∃ m, n = m + 1 := ⟨n - 1, by omega⟩
      have hinner := agrees_operand inner hnext (Nat.le_of_lt_succ hn)
        (ends_of_mem (by decide) rest)
      exact agrees_paren hlex hinner

/-- Arguments are read as what they mean, behind those that were read before. -/
theorem agrees_args : ∀ (t : Args) (args : List Expr) ⦃n budget : Nat⦄ ⦃s : State⦄
    ⦃rest : List Lexeme⦄, s.lexemes = t.lexemes ++ rest → s.lexemes.length < n →
    s.lexemes.length < budget →
    Agrees rest (argsBehind args t s.names) (iterate (argumentStep (exprAt n)) budget args s)
  | .close => by
      intro args n budget s rest hlex hn hbudget
      obtain ⟨budget, rfl⟩ : ∃ m, budget = m + 1 := ⟨budget - 1, by omega⟩
      rw [argsBehind_close, iterate_inr budget (argumentStep_close args hlex)]
      exact ⟨s.next, rfl, lexemes_next_of_cons hlex, rfl⟩
  | .last arg => by
      intro args n budget s rest hlex hn hbudget
      obtain ⟨n, rfl⟩ : ∃ m, n = m + 1 := ⟨n - 1, by omega⟩
      rw [Args.lexemes, List.append_assoc] at hlex
      have hlen : 2 ≤ s.lexemes.length := by
        obtain ⟨l, ls, hl, -⟩ := arg.exists_cons
        simp [hlex, hl]
        omega
      obtain ⟨budget, rfl⟩ : ∃ m, budget = m + 2 := ⟨budget - 2, by omega⟩
      rw [argsBehind_last, iterate_argument _ args
        (by rw [hlex]; exact arg.head?_ne _ (by decide))]
      refine (agrees_operand arg hlex (Nat.le_of_lt_succ hn)
        (ends_of_mem (by decide) rest)).bind fun e u hu => ?_
      refine Agrees.after (separator_close hu) rfl ?_
      rw [iterate_inr budget (argumentStep_close _ hu)]
      exact ⟨u.next, rfl, lexemes_next_of_cons hu, rfl⟩
  | .next arg more => by
      intro args n budget s rest hlex hn hbudget
      obtain ⟨n, rfl⟩ : ∃ m, n = m + 1 := ⟨n - 1, by omega⟩
      obtain ⟨budget, rfl⟩ : ∃ m, budget = m + 1 := ⟨budget - 1, by omega⟩
      rw [Args.lexemes, List.append_assoc, List.cons_append] at hlex
      rw [argsBehind_next, iterate_argument budget args
        (by rw [hlex]; exact arg.head?_ne _ (by decide))]
      refine (agrees_operand arg hlex (Nat.le_of_lt_succ hn)
        (ends_of_mem (by decide) _)).bind fun e u hu => ?_
      refine Agrees.after (separator_comma hu) (State.names_next u) ?_
      have hnext := lexemes_next_of_cons hu
      rw [hlex, List.length_append, List.length_cons, ← hnext] at hn hbudget
      exact agrees_args more _ hnext (by omega) (by omega)

end

/-- An expression in front of a sign of its surroundings is read as what it means. -/
theorem agrees_expr (t : Expression) (hlex : s.lexemes = t.lexemes ++ rest) (hrest : Ends 3 rest) :
    Agrees rest (t.resolve s.names) (expr s) :=
  agrees_operand t hlex (Nat.le_of_eq (State.length_lexemes s)) hrest

/-! ## Simple statements and declarations -/

/-- A sign that stands behind statements and conditions is ahead. -/
def Stops (rest : List Lexeme) : Prop :=
  ∃ text ls, text ∈ [";", "\x7b", "\x7d"] ∧ rest = .reserved text :: ls

theorem stops_of_mem {text : String} (h : text ∈ [";", "\x7b", "\x7d"]) (ls : List Lexeme) :
    Stops (.reserved text :: ls) :=
  ⟨text, ls, h, rfl⟩

theorem Stops.ends (h : Stops rest) : Ends 3 rest := by
  obtain ⟨text, ls, htext, rfl⟩ := h
  have hmem : ∀ text ∈ [";", "\x7b", "\x7d"], text ∈ [")", ",", ";", "=", "\x7b", "\x7d"] := by
    decide
  exact ends_of_mem (hmem text htext) ls

theorem Stops.head?_ne (h : Stops rest) {text : String} (htext : text ∉ [";", "\x7b", "\x7d"]) :
    rest.head? ≠ some (.reserved text) := by
  obtain ⟨text', ls, hmem, rfl⟩ := h
  rintro ⟨⟩
  exact htext hmem

theorem agrees_simple (t : Simple) (hlex : s.lexemes = t.lexemes ++ rest) (hrest : Stops rest) :
    Agrees rest (t.elaborate s.names) (simple s) := by
  obtain ⟨left, right⟩ := t
  rw [simple, bind_of_ok (current_eq s), Simple.elaborate]
  cases right with
  | none =>
      have hleft : s.lexemes = left.lexemes ++ rest := by simpa [Simple.lexemes] using hlex
      refine (agrees_expr left hleft hrest.ends).bind fun e u hu => ?_
      refine Agrees.after (accept_of_ne (by rw [hu]; exact hrest.head?_ne (by decide))) rfl ?_
      exact agrees_pure hu
  | some right =>
      have hleft : s.lexemes = left.lexemes ++ (.reserved "=" :: (right.lexemes ++ rest)) := by
        simpa [Simple.lexemes, valueLexemes] using hlex
      refine (agrees_expr left hleft (ends_of_mem (by decide) _)).bind fun e u hu => ?_
      refine Agrees.after (accept_of_cons hu) (State.names_next u) ?_
      cases e with
      | var id =>
          refine (agrees_expr right (lexemes_next_of_cons hu) hrest.ends).bind fun e v hv => ?_
          exact agrees_pure hv
      | num value => exact ⟨s.current.pos, u.next, rfl⟩
      | binary op l r => exact ⟨s.current.pos, u.next, rfl⟩
      | call callee args => exact ⟨s.current.pos, u.next, rfl⟩

theorem agrees_declare (name : Token) (hlex : s.lexemes = rest) :
    Agrees rest (Grammar.declare name.text s.names) (declare name .int s) := by
  cases hscopes : s.scopes with
  | nil =>
      rw [Grammar.declare_of_nil name.text hscopes, declare, hscopes]
      exact ⟨name.pos, s, rfl⟩
  | cons scope outer =>
      rw [Grammar.declare_of_cons name.text hscopes, declare, hscopes]
      dsimp only
      split
      · exact ⟨name.pos, s, rfl⟩
      · exact ⟨_, rfl, hlex, rfl⟩

/-- The end of a declaration whose first value has been read. -/
theorem agrees_declaration_end (name : Token) (value : Expr) (hlex : s.lexemes = rest) :
    Agrees rest ((Grammar.declare name.text >>= fun id => pure (Stmt.assign id value)) s.names)
      ((declare name .int >>= fun id => pure (Stmt.assign id value)) s) :=
  (agrees_declare name hlex).bind fun _ _ hu => agrees_pure hu

theorem agrees_declaration (t : Local) (hlex : s.lexemes = t.lexemes ++ rest)
    (hrest : Stops rest) : Agrees rest (t.elaborate s.names) (declaration s) := by
  cases t with
  | inferred name value =>
      rw [Local.lexemes, valueLexemes, List.cons_append, List.cons_append] at hlex
      obtain ⟨hident, rfl⟩ := identifier_of_cons hlex
      have hequals := lexemes_next_of_cons hlex
      rw [declaration]
      refine Agrees.after hident (State.names_next s) ?_
      refine Agrees.after (accept_of_cons hequals) (State.names_next _) ?_
      refine (agrees_expr value (lexemes_next_of_cons hequals) hrest.ends).bind fun e u hu => ?_
      exact agrees_declaration_end _ e hu
  | typed name value =>
      rw [Local.lexemes, List.cons_append, List.cons_append] at hlex
      obtain ⟨hident, rfl⟩ := identifier_of_cons hlex
      have htype := lexemes_next_of_cons hlex
      have hafter := lexemes_next_of_cons htype
      rw [declaration]
      refine Agrees.after hident (State.names_next s) ?_
      refine Agrees.after (accept_of_ne (by simp [htype, typeLexeme])) rfl ?_
      refine Agrees.after (typeName_of_cons htype) (State.names_next _) ?_
      cases value with
      | none =>
          refine Agrees.after
            (accept_of_ne (by rw [hafter]; exact hrest.head?_ne (by decide))) rfl ?_
          exact agrees_declaration_end _ _ hafter
      | some value =>
          refine Agrees.after (accept_of_cons hafter) (State.names_next _) ?_
          refine (agrees_expr value (lexemes_next_of_cons hafter) hrest.ends).bind fun e u hu => ?_
          exact agrees_declaration_end _ e hu

/-! ## Heads -/

/-- A statement that serves as a condition is the condition. -/
theorem agrees_condition {mid : List Lexeme} (cond : Expression)
    (hlex : s.lexemes = cond.lexemes ++ rest) (hrest : Stops rest) {f : Expr → Elaboration α}
    {g : Stmt → Parser α}
    (hnext : ∀ e u, u.lexemes = rest → Agrees mid (f e u.names) (g (.expr e) u)) :
    Agrees mid ((cond.resolve >>= f) s.names) ((simple >>= g) s) := by
  rw [simple, bind_assoc, bind_of_ok (current_eq s), bind_assoc]
  refine (agrees_expr cond hlex hrest.ends).bind fun e u hu => ?_
  rw [bind_assoc]
  refine Agrees.after (accept_of_ne (by rw [hu]; exact hrest.head?_ne (by decide))) rfl ?_
  exact hnext e u hu

/-- An opening brace is ahead. -/
abbrev AtBrace (rest : List Lexeme) : Prop :=
  ∃ ls, rest = .reserved "\x7b" :: ls

theorem AtBrace.stops (h : AtBrace rest) : Stops rest := by
  obtain ⟨ls, rfl⟩ := h
  exact stops_of_mem (by decide) ls

theorem AtBrace.head?_ne (h : AtBrace rest) {text : String} (htext : text ≠ "\x7b") :
    rest.head? ≠ some (.reserved text) := by
  obtain ⟨ls, rfl⟩ := h
  rintro ⟨⟩
  exact htext rfl

theorem agrees_branchHead (init : Option Simple) (cond : Expression)
    (hlex : s.lexemes = initLexemes init ++ (cond.lexemes ++ rest)) (hrest : AtBrace rest) :
    Agrees rest ((do
        let i ← optionally Simple.elaborate init
        let c ← cond.resolve
        return (i, c)) s.names) (branchHead s) := by
  rw [branchHead, bind_of_ok (current_eq s)]
  cases init with
  | none =>
      rw [optionally, pure_bind]
      refine agrees_condition cond hlex hrest.stops fun e u hu => ?_
      refine Agrees.after (accept_of_ne (by rw [hu]; exact hrest.head?_ne (by decide))) rfl ?_
      exact agrees_pure hu
  | some init =>
      have hinit : s.lexemes = init.lexemes ++ (.reserved ";" :: (cond.lexemes ++ rest)) := by
        simpa [initLexemes] using hlex
      rw [optionally, bind_assoc]
      refine (agrees_simple init hinit (stops_of_mem (by decide) _)).bind fun st u hu => ?_
      refine Agrees.after (accept_of_cons hu) (State.names_next u) ?_
      rw [pure_bind]
      refine (agrees_expr cond (lexemes_next_of_cons hu) hrest.stops.ends).bind fun e v hv => ?_
      exact agrees_pure hv

/-- A part that may be missing, in front of the sign that tells so. -/
theorem agrees_missingAt {τ : Type} {x : τ → Elaboration α} {p : Parser α}
    {spelled : τ → List Lexeme} {text : String} (t : Option τ)
    (hlex : s.lexemes = t.elim [] spelled ++ .reserved text :: rest)
    (hsome : ∀ a, s.lexemes = spelled a ++ .reserved text :: rest →
      s.lexemes.head? ≠ some (.reserved text) ∧
        Agrees (.reserved text :: rest) (x a s.names) (p s)) :
    Agrees (.reserved text :: rest) (optionally x t s.names) (missingAt text p s) := by
  rw [missingAt]
  cases t with
  | none =>
      refine Agrees.after (isAt_of_cons hlex) rfl ?_
      exact agrees_pure hlex
  | some a =>
      obtain ⟨hne, hagrees⟩ := hsome a hlex
      refine Agrees.after (isAt_of_ne hne) rfl ?_
      exact hagrees.bind fun _ _ hu => agrees_pure hu

theorem agrees_loopClauses (i : Option Stmt) (cond : Option Expression) (post : Option Simple)
    (hlex : s.lexemes = .reserved ";" :: (cond.elim [] Operand.lexemes ++
      .reserved ";" :: (post.elim [] Simple.lexemes ++ rest))) (hrest : AtBrace rest) :
    Agrees rest ((do
        let c ← optionally Expression.resolve cond
        let p ← optionally Simple.elaborate post
        return (i, c, p)) s.names) (loopClauses i s) := by
  obtain ⟨ls, rfl⟩ := hrest
  rw [loopClauses_eq]
  refine Agrees.after (expect_of_cons hlex) (State.names_next s) ?_
  refine Agrees.bind (agrees_missingAt cond (lexemes_next_of_cons hlex) fun a ha => ⟨?_, ?_⟩) ?_
  · rw [ha]
    exact a.head?_ne _ (by decide)
  · exact agrees_expr a ha (ends_of_mem (by decide) _)
  intro c u hu
  refine Agrees.after (expect_of_cons hu) (State.names_next u) ?_
  refine Agrees.bind (agrees_missingAt post (lexemes_next_of_cons hu) fun a ha => ⟨?_, ?_⟩) ?_
  · rw [ha]
    exact a.head?_ne _ (by decide)
  · exact agrees_simple a ha (stops_of_mem (by decide) _)
  intro p v hv
  exact agrees_pure hv

theorem agrees_loopHead (t : LoopHead) (hlex : s.lexemes = t.lexemes ++ rest)
    (hrest : AtBrace rest) : Agrees rest (t.elaborate s.names) (loopHead s) := by
  rw [loopHead]
  cases t with
  | forever =>
      obtain ⟨ls, rfl⟩ := hrest
      refine Agrees.after (isAt_of_cons hlex) rfl ?_
      exact agrees_pure hlex
  | «while» cond =>
      rw [LoopHead.lexemes] at hlex
      refine Agrees.after (isAt_of_ne (by rw [hlex]; exact cond.head?_ne _ (by decide))) rfl ?_
      refine Agrees.after (isAt_of_ne (by rw [hlex]; exact cond.head?_ne _ (by decide))) rfl ?_
      refine Agrees.after (current_eq s) rfl ?_
      refine agrees_condition cond hlex hrest.stops fun e u hu => ?_
      refine Agrees.after (isAt_of_ne (by rw [hu]; exact hrest.head?_ne (by decide))) rfl ?_
      exact agrees_pure hu
  | clauses init cond post =>
      rw [LoopHead.lexemes, List.append_assoc, List.cons_append, List.append_assoc,
        List.cons_append] at hlex
      cases init with
      | none =>
          rw [Option.elim_none, List.nil_append] at hlex
          refine Agrees.after (isAt_of_ne (by simp [hlex])) rfl ?_
          refine Agrees.after (isAt_of_cons hlex) rfl ?_
          exact agrees_loopClauses none cond post hlex hrest
      | some init =>
          rw [Option.elim_some] at hlex
          refine Agrees.after (isAt_of_ne (by rw [hlex]; exact init.head?_ne _ (by decide))) rfl ?_
          refine Agrees.after (isAt_of_ne (by rw [hlex]; exact init.head?_ne _ (by decide))) rfl ?_
          refine Agrees.after (current_eq s) rfl ?_
          rw [LoopHead.elaborate, optionally, bind_assoc]
          refine (agrees_simple init hlex (stops_of_mem (by decide) _)).bind fun st u hu => ?_
          refine Agrees.after (isAt_of_cons hu) rfl ?_
          rw [pure_bind]
          exact agrees_loopClauses (some st) cond post hu hrest

/-! ## Blocks -/

/-- The statements of a block behind those that were read before. -/
def bodyBehind (body : List Stmt) (t : Body) : Elaboration (List Stmt) :=
  (body ++ ·) <$> t.elaborate

theorem bodyBehind_nil (t : Body) : bodyBehind [] t = t.elaborate := by
  simp only [bodyBehind, List.nil_append, id_map']

theorem bodyBehind_close (body : List Stmt) : bodyBehind body .close = pure body := by
  rw [bodyBehind, Body.elaborate, map_pure, List.append_nil]

theorem bodyBehind_skip (body : List Stmt) (t : Body) :
    bodyBehind body (.skip t) = bodyBehind body t := by
  rw [bodyBehind, bodyBehind, Body.elaborate]

theorem bodyBehind_last (body : List Stmt) (t : Statement) :
    bodyBehind body (.last t) = (t.elaborate >>= fun st => pure (body ++ [st])) := by
  rw [bodyBehind, Body.elaborate]
  simp only [map_bind, map_pure]

theorem bodyBehind_next (body : List Stmt) (t : Statement) (more : Body) :
    bodyBehind body (.next t more) =
      (t.elaborate >>= fun st => bodyBehind (body ++ [st]) more) := by
  simp only [bodyBehind, Body.elaborate, map_eq_pure_bind, bind_assoc, pure_bind,
    List.append_assoc, List.singleton_append]

theorem bodyStep_skip {stmt : Parser Stmt} (body : List Stmt)
    (h : s.lexemes = .reserved ";" :: rest) : bodyStep stmt body s = .ok (.inl body) s.next := by
  rw [bodyStep, bind_of_ok (accept_of_cons h)]
  rfl

theorem bodyStep_close {stmt : Parser Stmt} (body : List Stmt)
    (h : s.lexemes = .reserved "\x7d" :: rest) :
    bodyStep stmt body s = .ok (.inr body) s.next := by
  have hsemi : accept ";" s = .ok false s := accept_of_ne (by simp [h])
  rw [bodyStep, bind_of_ok hsemi, if_neg (by decide), bind_of_ok (accept_of_cons h)]
  rfl

/-- The sign behind a statement of a block. -/
def statementEnd : Parser Unit := do
  if ← isAt "\x7d" then pure () else expect ";"

theorem statementEnd_close (h : s.lexemes = .reserved "\x7d" :: rest) :
    statementEnd s = .ok () s := by
  rw [statementEnd, bind_of_ok (isAt_of_cons h)]
  rfl

theorem statementEnd_semicolon (h : s.lexemes = .reserved ";" :: rest) :
    statementEnd s = .ok () s.next := by
  have hbrace : isAt "\x7d" s = .ok false s := isAt_of_ne (by simp [h])
  rw [statementEnd, bind_of_ok hbrace, if_neg (by decide), expect_of_cons h]

theorem statementEnd_bind (k : Parser α) :
    (statementEnd >>= fun _ => k) =
      (isAt "\x7d" >>= fun b => if b then k else expect ";" >>= fun _ => k) := by
  rw [statementEnd, bind_assoc]
  congr 1
  funext b
  cases b <;> rfl

theorem iterate_statement {stmt : Parser Stmt} (budget : Nat) (body : List Stmt)
    (hsemi : s.lexemes.head? ≠ some (.reserved ";"))
    (hbrace : s.lexemes.head? ≠ some (.reserved "\x7d")) :
    iterate (bodyStep stmt) (budget + 1) body s =
      (stmt >>= fun st => statementEnd >>= fun _ =>
        iterate (bodyStep stmt) budget (body ++ [st])) s := by
  have hstep : bodyStep stmt body s =
      (stmt >>= fun st => statementEnd >>= fun _ => pure (.inl (body ++ [st]))) s := by
    rw [bodyStep, bind_of_ok (accept_of_ne hsemi), if_neg (by decide),
      bind_of_ok (accept_of_ne hbrace), if_neg (by decide)]
    simp only [statementEnd_bind]
  rw [iterate, bind_of_eq hstep]
  simp only [bind_assoc, pure_bind]

/-! ## Statements -/

section Dispatch

variable {nested : Parser Stmt}

theorem statement_ret (h : s.lexemes = .reserved "return" :: rest) :
    statement nested s = (expr >>= fun e => pure (.ret e)) s.next := by
  rw [statement, bind_of_ok (accept_of_cons h)]
  rfl

theorem statement_var (h : s.lexemes = .reserved "var" :: rest) :
    statement nested s = declaration s.next := by
  rw [statement, bind_of_ok (accept_of_ne (by simp [h])), if_neg (by decide),
    bind_of_ok (accept_of_cons h)]
  rfl

theorem statement_if (h : s.lexemes = .reserved "if" :: rest) :
    statement nested s = branch nested s.next := by
  rw [statement, bind_of_ok (accept_of_ne (by simp [h])), if_neg (by decide),
    bind_of_ok (accept_of_ne (by simp [h])), if_neg (by decide), bind_of_ok (accept_of_cons h)]
  rfl

theorem statement_for (h : s.lexemes = .reserved "for" :: rest) :
    statement nested s = repetition nested s.next := by
  rw [statement, bind_of_ok (accept_of_ne (by simp [h])), if_neg (by decide),
    bind_of_ok (accept_of_ne (by simp [h])), if_neg (by decide),
    bind_of_ok (accept_of_ne (by simp [h])), if_neg (by decide), bind_of_ok (accept_of_cons h)]
  rfl

theorem statement_block (h : s.lexemes = .reserved "\x7b" :: rest) :
    statement nested s = (block nested >>= fun b => pure (.block b)) s := by
  rw [statement, bind_of_ok (accept_of_ne (by simp [h])), if_neg (by decide),
    bind_of_ok (accept_of_ne (by simp [h])), if_neg (by decide),
    bind_of_ok (accept_of_ne (by simp [h])), if_neg (by decide),
    bind_of_ok (accept_of_ne (by simp [h])), if_neg (by decide), bind_of_ok (isAt_of_cons h)]
  rfl

theorem statement_simple {t : Simple} (h : s.lexemes = t.lexemes ++ rest) :
    statement nested s = simple s := by
  have hne : ∀ {text}, opensExpression (.reserved text) = false →
      s.lexemes.head? ≠ some (.reserved text) := by
    intro text htext
    rw [h]
    exact t.head?_ne _ htext
  rw [statement, bind_of_ok (accept_of_ne (hne (by decide))), if_neg (by decide),
    bind_of_ok (accept_of_ne (hne (by decide))), if_neg (by decide),
    bind_of_ok (accept_of_ne (hne (by decide))), if_neg (by decide),
    bind_of_ok (accept_of_ne (hne (by decide))), if_neg (by decide),
    bind_of_ok (isAt_of_ne (hne (by decide))), if_neg (by decide)]

/-- A block, when its statements are read as what they mean. -/
theorem agrees_block {body : Body} (hlex : s.lexemes = .reserved "\x7b" :: (body.lexemes ++ rest))
    (h : ∀ u : State, u.lexemes = body.lexemes ++ rest →
      Agrees rest (bodyBehind [] body u.names)
        (iterate (bodyStep nested) (u.lexemes.length + 1) [] u)) :
    Agrees rest (Grammar.inScope body.elaborate s.names) (block nested s) := by
  refine Agrees.inScope ?_
  have hnext := lexemes_next_of_cons (s := s.enter) hlex
  refine Agrees.after (expect_of_cons (s := s.enter) hlex) (State.names_next _) ?_
  have hbody := h s.enter.next hnext
  rw [bodyBehind_nil, State.length_lexemes] at hbody
  exact hbody

end Dispatch

/-- The parser reads statements wherever fewer than `n` lexemes are ahead. -/
def Covers (n : Nat) (p : Parser Stmt) : Prop :=
  ∀ u : State, u.lexemes.length < n →
    ∃ m, u.lexemes.length ≤ m ∧ p u = statement (stmtAt m) u

theorem covers_stmtAt (n : Nat) : Covers n (stmtAt n) := by
  intro u hu
  obtain ⟨n, rfl⟩ : ∃ m, n = m + 1 := ⟨n - 1, by omega⟩
  exact ⟨n, Nat.le_of_lt_succ hu, rfl⟩

theorem covers_stmt (n : Nat) : Covers n stmt :=
  fun u _ => ⟨u.ahead.length, Nat.le_of_eq (State.length_lexemes u), rfl⟩

mutual

/-- A statement is read as what it means. -/
theorem agrees_statement : ∀ (t : Statement) ⦃n : Nat⦄ ⦃s : State⦄ ⦃rest : List Lexeme⦄,
    s.lexemes = t.lexemes ++ rest → s.lexemes.length ≤ n → Stops rest →
    Agrees rest (t.elaborate s.names) (statement (stmtAt n) s)
  | .ret value => by
      intro n s rest hlex hn hrest
      rw [Statement.lexemes, List.cons_append] at hlex
      rw [statement_ret hlex, Statement.elaborate, ← State.names_next s]
      refine (agrees_expr value (lexemes_next_of_cons hlex) hrest.ends).bind fun e u hu => ?_
      exact agrees_pure hu
  | .declare decl => by
      intro n s rest hlex hn hrest
      rw [Statement.lexemes, List.cons_append] at hlex
      rw [statement_var hlex, Statement.elaborate, ← State.names_next s]
      exact agrees_declaration decl (lexemes_next_of_cons hlex) hrest
  | .branch cases => by
      intro n s rest hlex hn hrest
      rw [Statement.lexemes, List.cons_append] at hlex
      have hnext := lexemes_next_of_cons hlex
      rw [hlex, List.length_cons, ← hnext] at hn
      rw [statement_if hlex, Statement.elaborate, ← State.names_next s]
      exact agrees_conditional cases hnext (by omega) hrest
  | .loop head body => by
      intro n s rest hlex hn hrest
      rw [Statement.lexemes, List.cons_append, List.append_assoc, List.cons_append] at hlex
      have hnext := lexemes_next_of_cons hlex
      rw [hlex, List.length_cons, ← hnext, hnext, List.length_append, List.length_cons] at hn
      rw [statement_for hlex, Statement.elaborate, ← State.names_next s]
      refine Agrees.inScope ?_
      refine (agrees_loopHead (s := s.next.enter) head hnext ⟨_, rfl⟩).bind fun r u hu => ?_
      obtain ⟨init, cond, post⟩ := r
      refine Agrees.bind (agrees_block hu fun v hv => ?_) fun b v hv => agrees_pure hv
      rw [← hv] at hn
      exact agrees_body body [] (covers_stmtAt n) hv (by omega) (by omega)
  | .block body => by
      intro n s rest hlex hn hrest
      rw [Statement.lexemes, List.cons_append] at hlex
      rw [hlex, List.length_cons] at hn
      rw [statement_block hlex, Statement.elaborate]
      refine Agrees.bind (agrees_block hlex fun v hv => ?_) fun b v hv => agrees_pure hv
      rw [← hv] at hn
      exact agrees_body body [] (covers_stmtAt n) hv (by omega) (by omega)
  | .simple stmt => by
      intro n s rest hlex hn hrest
      rw [Statement.lexemes] at hlex
      rw [statement_simple hlex, Statement.elaborate]
      exact agrees_simple stmt hlex hrest

/-- A conditional is read as what it means. -/
theorem agrees_conditional : ∀ (t : Conditional) ⦃n : Nat⦄ ⦃s : State⦄ ⦃rest : List Lexeme⦄,
    s.lexemes = t.lexemes ++ rest → s.lexemes.length ≤ n → Stops rest →
    Agrees rest (t.elaborate s.names) (branch (stmtAt n) s)
  | .mk init cond body other => by
      intro n s rest hlex hn hrest
      simp only [Conditional.lexemes, List.append_assoc, List.cons_append] at hlex
      rw [hlex] at hn
      simp only [List.length_append, List.length_cons] at hn
      rw [Conditional.elaborate]
      refine Agrees.inScope ?_
      have hhead := agrees_branchHead (s := s.enter) init cond hlex ⟨_, rfl⟩
      have hmeaning : (do
          let i ← optionally Simple.elaborate init
          let c ← cond.resolve
          let b ← Grammar.inScope body.elaborate
          return Stmt.branch i c b (← other.elaborate)) = ((do
          let i ← optionally Simple.elaborate init
          let c ← cond.resolve
          return (i, c)) >>= fun r => (do
          let b ← Grammar.inScope body.elaborate
          return Stmt.branch r.1 r.2 b (← other.elaborate))) := by
        simp only [bind_assoc, pure_bind]
      rw [hmeaning]
      refine hhead.bind fun r u hu => ?_
      obtain ⟨i, c⟩ := r
      refine Agrees.bind (agrees_block hu fun v hv => ?_) fun b v hv => ?_
      · have hlen := congrArg List.length hv
        rw [List.length_append, List.length_append] at hlen
        exact agrees_body body [] (covers_stmtAt n) hv (by omega) (by omega)
      · have hlen := congrArg List.length hv
        rw [List.length_append] at hlen
        exact (agrees_otherwise other hv (by omega) hrest).bind fun o w hw => agrees_pure hw

/-- The other case of a conditional is read as what it means. -/
theorem agrees_otherwise : ∀ (t : Otherwise) ⦃n : Nat⦄ ⦃s : State⦄ ⦃rest : List Lexeme⦄,
    s.lexemes = t.lexemes ++ rest → s.lexemes.length ≤ n → Stops rest →
    Agrees rest (t.elaborate s.names) (otherwise (stmtAt n) s)
  | .none => by
      intro n s rest hlex hn hrest
      rw [Otherwise.lexemes, List.nil_append] at hlex
      rw [otherwise, Otherwise.elaborate]
      refine Agrees.after (accept_of_ne (by rw [hlex]; exact hrest.head?_ne (by decide))) rfl ?_
      exact agrees_pure hlex
  | .elseIf cases => by
      intro n s rest hlex hn hrest
      rw [Otherwise.lexemes, List.cons_append, List.cons_append] at hlex
      have hif := lexemes_next_of_cons hlex
      have hnext := lexemes_next_of_cons hif
      rw [hlex, List.length_cons, List.length_cons, ← hnext] at hn
      obtain ⟨n, rfl⟩ : ∃ m, n = m + 1 := ⟨n - 1, by omega⟩
      rw [otherwise, Otherwise.elaborate]
      refine Agrees.after (accept_of_cons hlex) (State.names_next s) ?_
      refine Agrees.after (isAt_of_cons hif) rfl ?_
      refine Agrees.bind ?_ fun st u hu => agrees_pure hu
      rw [stmtAt, statement_if hif, ← State.names_next s.next]
      exact agrees_conditional cases hnext (by omega) hrest
  | .elseBlock body => by
      intro n s rest hlex hn hrest
      rw [Otherwise.lexemes, List.cons_append, List.cons_append] at hlex
      have hblock := lexemes_next_of_cons hlex
      rw [hlex, List.length_cons, List.length_cons] at hn
      rw [otherwise, Otherwise.elaborate]
      refine Agrees.after (accept_of_cons hlex) (State.names_next s) ?_
      refine Agrees.after (isAt_of_ne (by simp [hblock])) rfl ?_
      refine Agrees.bind (agrees_block hblock fun v hv => ?_) fun b v hv => agrees_pure hv
      rw [← hv] at hn
      exact agrees_body body [] (covers_stmtAt n) hv (by omega) (by omega)

/-- The statements of a block are read as what they mean, behind those that were read before. -/
theorem agrees_body : ∀ (t : Body) (body : List Stmt) ⦃n budget : Nat⦄ ⦃p : Parser Stmt⦄
    ⦃s : State⦄ ⦃rest : List Lexeme⦄, Covers n p → s.lexemes = t.lexemes ++ rest →
    s.lexemes.length < n → s.lexemes.length < budget →
    Agrees rest (bodyBehind body t s.names) (iterate (bodyStep p) budget body s)
  | .close => by
      intro body n budget p s rest hp hlex hn hbudget
      obtain ⟨budget, rfl⟩ : ∃ m, budget = m + 1 := ⟨budget - 1, by omega⟩
      rw [Body.lexemes] at hlex
      rw [bodyBehind_close, iterate_inr budget (bodyStep_close body hlex)]
      exact ⟨s.next, rfl, lexemes_next_of_cons hlex, rfl⟩
  | .skip more => by
      intro body n budget p s rest hp hlex hn hbudget
      obtain ⟨budget, rfl⟩ : ∃ m, budget = m + 1 := ⟨budget - 1, by omega⟩
      rw [Body.lexemes, List.cons_append] at hlex
      have hnext := lexemes_next_of_cons hlex
      rw [hlex, List.length_cons, ← hnext] at hn hbudget
      rw [bodyBehind_skip, iterate_inl budget (bodyStep_skip body hlex), ← State.names_next s]
      exact agrees_body more body hp hnext (by omega) (by omega)
  | .last stmt => by
      intro body n budget p s rest hp hlex hn hbudget
      obtain ⟨m, hm, hstmt⟩ := hp s hn
      rw [Body.lexemes, List.append_assoc] at hlex
      have hlen : 2 ≤ s.lexemes.length := by
        obtain ⟨l, ls, hl, -⟩ := stmt.exists_cons
        simp [hlex, hl]
        omega
      obtain ⟨budget, rfl⟩ : ∃ m, budget = m + 2 := ⟨budget - 2, by omega⟩
      rw [bodyBehind_last, iterate_statement _ body
        (by rw [hlex]; exact stmt.head?_ne _ (by decide))
        (by rw [hlex]; exact stmt.head?_ne _ (by decide)), bind_of_eq hstmt]
      refine (agrees_statement stmt hlex hm (stops_of_mem (by decide) rest)).bind fun st u hu => ?_
      refine Agrees.after (statementEnd_close hu) rfl ?_
      rw [iterate_inr budget (bodyStep_close _ hu)]
      exact ⟨u.next, rfl, lexemes_next_of_cons hu, rfl⟩
  | .next stmt more => by
      intro body n budget p s rest hp hlex hn hbudget
      obtain ⟨m, hm, hstmt⟩ := hp s hn
      obtain ⟨budget, rfl⟩ : ∃ m, budget = m + 1 := ⟨budget - 1, by omega⟩
      rw [Body.lexemes, List.append_assoc, List.cons_append] at hlex
      rw [bodyBehind_next, iterate_statement budget body
        (by rw [hlex]; exact stmt.head?_ne _ (by decide))
        (by rw [hlex]; exact stmt.head?_ne _ (by decide)), bind_of_eq hstmt]
      refine (agrees_statement stmt hlex hm (stops_of_mem (by decide) _)).bind fun st u hu => ?_
      refine Agrees.after (statementEnd_semicolon hu) (State.names_next u) ?_
      have hnext := lexemes_next_of_cons hu
      rw [hlex, List.length_append, List.length_cons, ← hnext] at hn hbudget
      exact agrees_body more _ hp hnext (by omega) (by omega)

end

/-! ## Functions -/

theorem parameterStep_close (count : Nat) (h : s.lexemes = .reserved ")" :: rest) :
    parameterStep count s = .ok (.inr count) s.next := by
  rw [parameterStep, bind_of_ok (accept_of_cons h)]
  rfl

/-- One parameter, and the parameters behind it. -/
theorem agrees_parameter {mid : List Lexeme} {name : String} {count budget : Nat}
    {f : Nat → Elaboration Nat}
    (hlex : s.lexemes = ⟨.ident, name⟩ :: typeLexeme :: mid)
    (hnext : ∀ u : State, u.lexemes = mid → Agrees rest (f (count + 1) u.names)
      ((separator >>= fun _ => iterate parameterStep budget (count + 1)) u)) :
    Agrees rest ((parameter count name >>= f) s.names)
      (iterate parameterStep (budget + 1) count s) := by
  obtain ⟨hident, rfl⟩ := identifier_of_cons hlex
  have htype := lexemes_next_of_cons hlex
  have hclose : accept ")" s = .ok false s := accept_of_ne (by simp [hlex])
  rw [iterate, parameterStep, parameter, bind_assoc]
  refine Agrees.after hclose rfl ?_
  rw [if_neg (show ¬false = true by decide), bind_assoc]
  refine Agrees.after hident (State.names_next s) ?_
  rw [bind_assoc]
  refine Agrees.after (typeName_of_cons htype) (State.names_next _) ?_
  split
  · simp only [bind_assoc, pure_bind]
    refine (agrees_declare s.current (lexemes_next_of_cons htype)).bind fun id u hu => ?_
    exact hnext u hu
  · exact ⟨s.current.pos, s.next.next, rfl⟩

theorem agrees_params (t : Params) (count budget : Nat) {s : State}
    (hlex : s.lexemes = t.lexemes ++ rest) (hbudget : s.lexemes.length < budget) :
    Agrees rest (t.elaborate count s.names) (iterate parameterStep budget count s) := by
  obtain ⟨budget, rfl⟩ : ∃ m, budget = m + 1 := ⟨budget - 1, by omega⟩
  induction t generalizing s count budget with
  | close =>
      rw [iterate_inr budget (parameterStep_close count hlex)]
      exact ⟨s.next, rfl, lexemes_next_of_cons hlex, rfl⟩
  | last name =>
      have hlen : 3 ≤ s.lexemes.length := by simp [hlex, Params.lexemes]
      obtain ⟨budget, rfl⟩ : ∃ m, budget = m + 1 := ⟨budget - 1, by omega⟩
      rw [Params.elaborate, ← bind_pure (parameter count name)]
      refine agrees_parameter hlex fun u hu => ?_
      rw [bind_of_ok (separator_close hu), iterate_inr budget (parameterStep_close _ hu)]
      exact ⟨u.next, rfl, lexemes_next_of_cons hu, rfl⟩
  | next name more ih =>
      have hlen : s.lexemes.length = (more.lexemes ++ rest).length + 3 := by
        simp [hlex, Params.lexemes]
      obtain ⟨budget, rfl⟩ : ∃ m, budget = m + 1 := ⟨budget - 1, by omega⟩
      rw [Params.elaborate]
      refine agrees_parameter hlex fun u hu => ?_
      rw [bind_of_ok (separator_comma hu), ← State.names_next u]
      have hnext : u.next.lexemes = more.lexemes ++ rest := lexemes_next_of_cons hu
      rw [← hnext] at hlen
      exact ih (count + 1) hnext budget (by omega)

/-- The body of a function is read as what it means, in the scope that is open. -/
theorem agrees_functionBody (t : Body)
    (hlex : s.lexemes = .reserved "\x7b" :: (t.lexemes ++ rest)) :
    Agrees rest (t.elaborate s.names) (body stmt s) := by
  have hnext := lexemes_next_of_cons hlex
  refine Agrees.after (expect_of_cons hlex) (State.names_next s) ?_
  have hbody := agrees_body t [] (covers_stmt (s.next.lexemes.length + 1)) hnext
    (Nat.lt_succ_self _) (Nat.lt_succ_self _)
  rw [bodyBehind_nil, State.length_lexemes] at hbody
  exact hbody

theorem agrees_signatureAndBody (t : Grammar.Function) (hlex : s.lexemes = t.signature ++ rest) :
    Agrees rest (t.scoped s.names) (signatureAndBody s) := by
  refine Agrees.inScope ?_
  simp only [Grammar.Function.signature, List.append_assoc, List.cons_append] at hlex
  refine Agrees.bind (p := parameters) (agrees_params (s := s.enter) t.params 0 _ hlex
    (Nat.lt_succ_of_le (Nat.le_of_eq (State.length_lexemes s)))) fun count u hu => ?_
  cases ht : t.typed with
  | false =>
      rw [ht, if_neg (by decide), List.nil_append] at hu
      refine Agrees.after (isAt_of_cons hu) rfl ?_
      exact (agrees_functionBody t.body hu).bind fun b v hv => agrees_pure hv
  | true =>
      rw [ht, if_pos rfl, List.singleton_append] at hu
      refine Agrees.after (isAt_of_ne (by simp [hu, typeLexeme])) rfl ?_
      refine Agrees.after (typeName_of_cons hu) (State.names_next u) ?_
      exact (agrees_functionBody t.body (lexemes_next_of_cons hu)).bind
        fun b v hv => agrees_pure hv

theorem agrees_function (t : Grammar.Function) (hlex : s.lexemes = t.lexemes ++ rest) :
    Agrees rest (t.elaborate s.names) (function s) := by
  simp only [Grammar.Function.lexemes, List.cons_append] at hlex
  have hname := lexemes_next_of_cons hlex
  have hopen := lexemes_next_of_cons hname
  obtain ⟨hident, htext⟩ := identifier_of_cons hname
  -- the state in which the parameters are read
  let u : State := { s.next.next.next with declared := [] }
  have hu : u.lexemes = t.signature ++ rest := lexemes_next_of_cons hopen
  have hstart : startFunction s.next.next.next = .ok () u := rfl
  rw [function, bind_of_ok (expect_of_cons hlex), bind_of_ok hident,
    bind_of_ok (expect_of_cons hopen), bind_of_ok hstart, htext]
  have hscoped := agrees_signatureAndBody t hu
  show Agrees rest (t.scoped u.names >>= fun r =>
    pure (Function.ofDeclarations t.name r.1.1 r.2.declared r.1.2, r.2)) _
  cases hr : t.scoped u.names with
  | error c =>
      rw [hr] at hscoped
      obtain ⟨pos, v, hv⟩ := hscoped
      exact ⟨pos, v, bind_of_error hv⟩
  | ok r =>
      obtain ⟨⟨count, body⟩, after⟩ := r
      rw [hr] at hscoped
      obtain ⟨v, hv, hvlex, rfl⟩ := hscoped
      rw [bind_of_ok hv]
      exact ⟨_, rfl, hvlex, rfl⟩

/-! ## Programs -/

theorem atEnd_of_ne (h : s.lexemes ≠ []) : atEnd s = .ok false s := by
  have hne : s.ahead ≠ [] := fun hnil => h (by rw [State.lexemes, hnil]; rfl)
  rw [atEnd, List.isEmpty_eq_false_iff.2 hne]

theorem agrees_functions (ts : List Grammar.Function) (done : List Function) (budget : Nat)
    {s : State} (hlex : s.lexemes = functionLexemes ts) (hbudget : s.lexemes.length < budget) :
    Agrees [] (functionsElaborate done ts s.names) (iterate functionStep budget done s) := by
  obtain ⟨budget, rfl⟩ : ∃ m, budget = m + 1 := ⟨budget - 1, by omega⟩
  induction ts generalizing s done budget with
  | nil =>
      have hend : atEnd s = .ok true s := by
        rw [atEnd, List.map_eq_nil_iff.1 hlex]
        rfl
      have hstep : functionStep done s = .ok (.inr done) s := by
        rw [functionStep, bind_of_ok hend]
        rfl
      rw [iterate_inr budget hstep]
      exact ⟨s, rfl, hlex, rfl⟩
  | cons t ts ih =>
      have hsplit : s.lexemes = t.lexemes ++ (.reserved ";" :: functionLexemes ts) := by
        rw [hlex]
        simp [functionLexemes]
      have hend : atEnd s = .ok false s := atEnd_of_ne (by simp [hsplit, Grammar.Function.lexemes])
      have hfollow : following s = .ok s.following s := rfl
      rw [iterate, functionStep, functionsElaborate, bind_assoc, bind_of_ok hend,
        if_neg (show ¬false = true by decide), bind_assoc, bind_of_ok hfollow, bind_assoc]
      refine (agrees_function t hsplit).bind fun g u hu => ?_
      split
      · exact ⟨s.following.pos, u, rfl⟩
      · rw [bind_assoc]
        refine Agrees.after (expect_of_cons hu) (State.names_next u) ?_
        have hnext := lexemes_next_of_cons hu
        have hlen : s.lexemes.length = t.lexemes.length + (u.next.lexemes.length + 1) := by
          rw [hsplit, List.length_append, List.length_cons, hnext]
        obtain ⟨budget, rfl⟩ : ∃ m, budget = m + 1 := ⟨budget - 1, by omega⟩
        rw [pure_bind]
        exact ih (done ++ [g]) hnext budget (by omega)

theorem agrees_program (t : Grammar.Program) (hlex : s.lexemes = functionLexemes t.functions) :
    Agrees [] ((functionsElaborate [] t.functions >>= fun fs => pure (Program.mk fs)) s.names)
      (program s) := by
  have hend : atEnd s = .ok false s := atEnd_of_ne (by
    simp [hlex, Grammar.Program.functions, functionLexemes, Grammar.Function.lexemes])
  rw [program, bind_of_ok hend, if_neg (show ¬false = true by decide)]
  refine Agrees.bind (p := loop functionStep []) ?_ fun fs u hu => agrees_pure hu
  exact agrees_functions t.functions [] _ hlex
    (Nat.lt_succ_of_le (Nat.le_of_eq (State.length_lexemes s)))

end Parser

/-- **The tokens of a sentence have the program that the sentence means, or break the rule that it
breaks.** -/
theorem parse_of_spells {tokens : List Token} {t : Grammar.Program} (h : Spells tokens t) :
    match t.elaborate with
    | .ok p => (Program.parse tokens).result = .ok p
    | .error c => ∃ pos, (Program.parse tokens).result = .error ⟨c, pos⟩ := by
  have hagrees := Parser.agrees_program (s := .ofTokens tokens) t h
  have hmeaning : t.elaborate = (do
      let r ← functionsElaborate [] t.functions {}
      return ⟨r.1⟩) := rfl
  unfold Program.parse
  rw [hmeaning]
  change Parser.Agrees [] (functionsElaborate [] t.functions {} >>= fun r =>
    pure (Program.mk r.1, r.2)) _ at hagrees
  cases hr : functionsElaborate [] t.functions {} with
  | ok r =>
      rw [hr] at hagrees
      obtain ⟨u, hu, -, -⟩ := hagrees
      rw [hu]
      rfl
  | error c =>
      rw [hr] at hagrees
      obtain ⟨pos, u, hu⟩ := hagrees
      rw [hu]
      exact ⟨pos, rfl⟩

/-- A program that was read is the meaning of every sentence that its tokens spell. -/
theorem elaborate_of_spells {tokens : List Token} {t : Grammar.Program} {p : Program}
    (ht : Spells tokens t) (h : (Program.parse tokens).result = .ok p) : t.elaborate = .ok p := by
  have hparse := parse_of_spells ht
  cases hr : t.elaborate with
  | ok q =>
      rw [hr, h] at hparse
      rw [Except.ok.inj hparse]
  | error c =>
      rw [hr, h] at hparse
      obtain ⟨pos, hpos⟩ := hparse
      cases hpos

/-- A program that was read is the meaning of a sentence that its tokens spell. -/
theorem exists_elaborate {tokens : List Token} {p : Program}
    (h : (Program.parse tokens).result = .ok p) :
    ∃ t : Grammar.Program, Spells tokens t ∧ t.elaborate = .ok p := by
  obtain ⟨t, ht⟩ := exists_spells h
  exact ⟨t, ht, elaborate_of_spells ht h⟩

end MicroGo
