import MicroGo.Proofs.Grammar.Agreement

/-!
# Phrases

The grammar of expressions as one would write it down: an operand of a level is an operand of the
level below, or an operand of the same level, an operator and an operand of the level below.  So the
operators of a level group to the left by the shape of the rule, and a tree that groups otherwise
needs parentheses.  `Phrase` says which lexemes stand for which expression where the names have a
given meaning.

The parser has no such rule.  It reads an operand of the level below and goes on with operators as
long as there are any, and builds the tree on the way.  That it follows the rule all the same is
shown along the left operands: reading a phrase of a level leads into the loop of this level, with
the expression that the phrase stands for (`Reached`).  The loop then ends unless an operator of the
level is ahead.

What a phrase is followed by is the token ahead of the parser behind it, which is the end of the
input if there is no other.
-/

namespace MicroGo

open Grammar

/-- The level whose operands the operator joins. -/
def BinaryOp.level : BinaryOp → Nat
  | .mul | .div => 0
  | .add | .sub => 1
  | .eq | .ne | .lt | .le => 2

/-- The sign that the operator is written with. -/
def BinaryOp.sign : BinaryOp → String
  | .add => "+"
  | .sub => "-"
  | .mul => "*"
  | .div => "/"
  | .eq => "=="
  | .ne => "!="
  | .lt => "<"
  | .le => "<="

/-- The operator, as the grammar has it. -/
def BinaryOp.operator (op : BinaryOp) : Operator op.level where
  text := op.sign
  combine := .binary op
  listed := by cases op <;> rfl

namespace Grammar

/-- What a phrase stands for: an operand of a level, or arguments up to the closing parenthesis. -/
inductive Subject where
  | operand (level : Nat) (e : Expr)
  | args (es : List Expr)

/-- **Phrases**: the lexemes stand for the subject where names have the meaning that the scopes
give them. -/
inductive Phrase (scopes : Scopes) : Subject → List Lexeme → Prop where
  | num {value : Int64} {text : String} (read : Numeral.read? text = some value) :
      Phrase scopes (.operand 0 (.num value)) [⟨.num, text⟩]
  | var {id : VarId} {name : String} (known : scopes.find? name = some id) :
      Phrase scopes (.operand 0 (.var id)) [⟨.ident, name⟩]
  | call {callee : String} {es : List Expr} {ls : List Lexeme} (few : es.length ≤ 6)
      (args : Phrase scopes (.args es) ls) :
      Phrase scopes (.operand 0 (.call callee es)) (⟨.ident, callee⟩ :: .reserved "(" :: ls)
  | paren {e : Expr} {ls : List Lexeme} (inner : Phrase scopes (.operand 3 e) ls) :
      Phrase scopes (.operand 0 e) (.reserved "(" :: (ls ++ [.reserved ")"]))
  | lift {level : Nat} {e : Expr} {ls : List Lexeme} (below : Phrase scopes (.operand level e) ls) :
      Phrase scopes (.operand (level + 1) e) ls
  | binary {op : BinaryOp} {l r : Expr} {ls rs : List Lexeme}
      (left : Phrase scopes (.operand (op.level + 1) l) ls)
      (right : Phrase scopes (.operand op.level r) rs) :
      Phrase scopes (.operand (op.level + 1) (.binary op l r)) (ls ++ .reserved op.sign :: rs)
  | close : Phrase scopes (.args []) [.reserved ")"]
  | last {e : Expr} {ls : List Lexeme} (arg : Phrase scopes (.operand 3 e) ls) :
      Phrase scopes (.args [e]) (ls ++ [.reserved ")"])
  | next {e : Expr} {es : List Expr} {ls ms : List Lexeme} (arg : Phrase scopes (.operand 3 e) ls)
      (more : Phrase scopes (.args es) ms) :
      Phrase scopes (.args (e :: es)) (ls ++ .reserved "," :: ms)

/-- The lexeme goes on with no operand of the level that ends as the lexemes do: it is no operator
that such an operand can have in it, and no parenthesis that makes a call of a name. -/
structure Delimits (level : Nat) (ls : List Lexeme) (l : Lexeme) : Prop where
  operators : ∀ k < level, (operators k).ofLexeme? l = none
  call : ∀ name, ls.getLast? = some ⟨.ident, name⟩ → l.text ≠ "("

theorem Delimits.mono {level lower : Nat} {ls : List Lexeme} {l : Lexeme} (h : Delimits level ls l)
    (hle : lower ≤ level) : Delimits lower ls l :=
  ⟨fun k hk => h.operators k (Nat.lt_of_lt_of_le hk hle), h.call⟩

theorem Delimits.suffix {level : Nat} {ls ms : List Lexeme} {l : Lexeme}
    (h : Delimits level (ls ++ ms) l) : Delimits level ms l := by
  refine ⟨h.operators, fun name hname => h.call name ?_⟩
  rw [List.getLast?_append, hname]
  rfl

theorem delimits_sign (op : BinaryOp) (ls : List Lexeme) :
    Delimits op.level ls (.reserved op.sign) :=
  ⟨fun _ hk => op.operator.lookup_lower hk, fun _ _ => op.operator.text_ne⟩

theorem delimits_of_mem {text : String} (h : text ∈ [")", ","]) (ls : List Lexeme) :
    Delimits 3 ls (.reserved text) := by
  have htexts : ∀ text ∈ [")", ","], text ≠ "(" ∧ ∀ k < 3, text ∉ operatorTexts k := by decide
  obtain ⟨hne, hops⟩ := htexts text h
  exact ⟨fun k hk => lookup_operators_eq_none (hops k hk), fun _ _ => hne⟩

/-- An operand begins with a name, a numeral or an opening parenthesis. -/
theorem Phrase.head?_ne {scopes : Scopes} {subject : Subject} {ls : List Lexeme}
    (h : Phrase scopes subject ls) {level : Nat} {e : Expr} (hsubject : subject = .operand level e)
    {text : String} (htext : text ≠ "(") (rest : List Lexeme) :
    (ls ++ rest).head? ≠ some (.reserved text) := by
  induction h generalizing level e rest with
  | num read => simp
  | var known => simp
  | call few args ih => simp
  | paren inner ih => simpa using htext.symm
  | lift below ih => exact ih rfl rest
  | binary left right ihl ihr =>
    rw [List.append_assoc]
    exact ihl rfl _
  | close => cases hsubject
  | last arg ih => cases hsubject
  | next arg more ih ihs => cases hsubject

end Grammar

namespace Parser

variable {s : State} {rest : List Lexeme}

namespace State

/-- The state behind the next tokens. -/
def past (s : State) (n : Nat) : State :=
  { s with ahead := s.ahead.drop n }

theorem next_eq_past (s : State) : s.next = s.past 1 := by
  rw [next, past, List.drop_one]

theorem past_past (s : State) (m n : Nat) : (s.past m).past n = s.past (m + n) := by
  simp only [past, List.drop_drop]

theorem next_past (s : State) (n : Nat) : s.next.past n = s.past (n + 1) := by
  rw [next_eq_past, past_past, Nat.add_comm]

theorem past_next (s : State) (n : Nat) : (s.past n).next = s.past (n + 1) := by
  rw [next_eq_past, past_past]

theorem lexemes_past {ls : List Lexeme} (h : s.lexemes = ls ++ rest) :
    (s.past ls.length).lexemes = rest := by
  have hdrop : (s.past ls.length).lexemes = s.lexemes.drop ls.length := List.map_drop
  rw [hdrop, h, List.drop_left]

theorem following_eq (s : State) : s.following = s.next.current := rfl

end State

/-! ## Signs, names and numerals -/

theorem unary_of_ne {operand : Parser Expr} (hplus : s.lexemes.head? ≠ some (.reserved "+"))
    (hminus : s.lexemes.head? ≠ some (.reserved "-")) : unary operand s = operand s := by
  have hsigns : loop signStep 0 s = .ok 0 s :=
    iterate_inr s.ahead.length (signStep_end 0 hplus hminus)
  rw [unary, bind_of_ok hsigns]
  show (operand >>= pure) s = operand s
  rw [bind_pure]

theorem numeral_of_cons {text : String} {value : Int64} (h : s.lexemes = ⟨.num, text⟩ :: rest)
    (hread : Numeral.read? text = some value) : numeral s = .ok (.num value) s.next := by
  have htake : take? (fun l => Numeral.read? l.text) s = .ok (some value) s.next := by
    rw [take?_eq, h, List.head?_cons, Option.bind_some, hread]
  rw [numeral, bind_of_ok (current_eq s), bind_of_ok htake]
  rfl

theorem variableUse_of_cons {name : String} {id : VarId} (h : s.lexemes = ⟨.ident, name⟩ :: rest)
    (hfind : s.scopes.find? name = some id) : variableUse s = .ok (.var id) s.next := by
  obtain ⟨hident, htext⟩ := identifier_of_cons h
  have hresolve : resolve s.current.text s.next = .ok (some id) s.next := by
    rw [htext, ← hfind]
    rfl
  rw [variableUse, bind_of_ok hident, bind_of_ok hresolve]
  rfl

theorem primary_paren {nested : Parser Expr} {e : Expr} {t : State}
    (h : s.lexemes = .reserved "(" :: rest) (hinner : nested s.next = .ok e t) {ls : List Lexeme}
    (ht : t.lexemes = .reserved ")" :: ls) : primary nested s = .ok e t.next := by
  rw [primary, bind_of_ok (accept_of_cons h), if_pos rfl, bind_of_ok hinner,
    bind_of_ok (expect_of_cons ht)]
  rfl

/-! ## Reading phrases -/

/-- **Reading has come behind an operand**: at the lowest level it is done, and above it is in the
loop of the level. -/
def Reached (n : Nat) (e : Expr) (s t : State) : (level : Nat) → Prop
  | 0 => operandAt (exprAt n) 0 s = .ok e t
  | level + 1 => ∃ budget, t.ahead.length < budget ∧
      operandAt (exprAt n) (level + 1) s =
        iterate (chainStep (operators level) (operandAt (exprAt n) level)) budget e t

/-- The loop ends where no operator is ahead. -/
theorem Reached.ok {n level : Nat} {e : Expr} {s t : State} {ls : List Lexeme}
    (h : Reached n e s t level) (hend : Delimits level ls t.current.toLexeme) :
    operandAt (exprAt n) level s = .ok e t := by
  cases level with
  | zero => exact h
  | succ level =>
    obtain ⟨budget, hbudget, hrun⟩ := h
    obtain ⟨budget, rfl⟩ : ∃ b, budget = b + 1 := ⟨budget - 1, by omega⟩
    have htake : take? (operators level).ofLexeme? t = .ok none t := by
      have hnone : t.lexemes.head?.bind (operators level).ofLexeme? = none := by
        cases hlex : t.lexemes with
        | nil => rfl
        | cons l ls =>
          rw [List.head?_cons, Option.bind_some, ← State.current_toLexeme hlex]
          exact hend.operators level (Nat.lt_succ_self level)
      rw [take?_eq, hnone]
    have hstep : chainStep (operators level) (operandAt (exprAt n) level) e t = .ok (.inr e) t := by
      rw [chainStep, bind_of_ok htake]
      rfl
    rw [hrun, iterate_inr budget hstep]

/-- An operand of a level is one of the level above as well. -/
theorem Reached.lift {n level : Nat} {e : Expr} {s t : State}
    (h : operandAt (exprAt n) level s = .ok e t) : Reached n e s t (level + 1) :=
  ⟨t.ahead.length + 1, Nat.lt_succ_self _, bind_of_ok h⟩

/-- One more operator and operand. -/
theorem Reached.binary {n : Nat} {op : BinaryOp} {l r : Expr} {s t u : State}
    (h : Reached n l s t (op.level + 1)) (ht : t.lexemes = .reserved op.sign :: rest)
    (hr : operandAt (exprAt n) op.level t.next = .ok r u) (hu : u.ahead.length < t.ahead.length) :
    Reached n (.binary op l r) s u (op.level + 1) := by
  obtain ⟨budget, hbudget, hrun⟩ := h
  obtain ⟨budget, rfl⟩ : ∃ b, budget = b + 1 := ⟨budget - 1, by omega⟩
  have hstep : chainStep (operators op.level) (operandAt (exprAt n) op.level) l t =
      .ok (.inl (.binary op l r)) u := by
    rw [chainStep, bind_of_ok (take?_operator op.operator ht)]
    exact bind_of_ok hr
  exact ⟨budget, by omega, by rw [hrun, iterate_inl budget hstep]⟩

/-- A phrase is read as what it stands for, and nothing behind it is taken. -/
def ReadsAs (scopes : Scopes) : Subject → List Lexeme → Prop
  | .operand level e, ls => ∀ ⦃n : Nat⦄ ⦃s : State⦄ ⦃rest : List Lexeme⦄, s.scopes = scopes →
      s.lexemes = ls ++ rest → s.lexemes.length ≤ n →
      Delimits (level - 1) ls (s.past ls.length).current.toLexeme →
      Reached n e s (s.past ls.length) level
  | .args es, ls => ∀ ⦃n budget : Nat⦄ ⦃s : State⦄ ⦃rest : List Lexeme⦄ (before : List Expr),
      s.scopes = scopes → s.lexemes = ls ++ rest → s.lexemes.length < n →
      s.lexemes.length < budget →
      iterate (argumentStep (exprAt n)) budget before s = .ok (before ++ es) (s.past ls.length)

/-- An expression between signs that end it. -/
theorem ReadsAs.expr {scopes : Scopes} {e : Expr} {ls ms : List Lexeme} {text : String} {n : Nat}
    (h : ReadsAs scopes (.operand 3 e) ls) (hscopes : s.scopes = scopes)
    (hlex : s.lexemes = ls ++ .reserved text :: ms) (hn : s.lexemes.length < n)
    (htext : text ∈ [")", ","]) :
    exprAt n s = .ok e (s.past ls.length) ∧ (s.past ls.length).lexemes = .reserved text :: ms := by
  obtain ⟨n, rfl⟩ : ∃ m, n = m + 1 := ⟨n - 1, by omega⟩
  have hpast := State.lexemes_past hlex
  have hend : Delimits 3 ls (s.past ls.length).current.toLexeme := by
    rw [State.current_toLexeme hpast]
    exact delimits_of_mem htext ls
  exact ⟨(h hscopes hlex (Nat.le_of_lt_succ hn) (hend.mono (by omega))).ok hend, hpast⟩

/-- **Phrases are read as what they stand for.** -/
theorem readsAs_of_phrase {scopes : Scopes} {subject : Subject} {ls : List Lexeme}
    (h : Phrase scopes subject ls) : ReadsAs scopes subject ls := by
  induction h with
  | num read =>
    intro n s rest hscopes hlex hn hend
    show unary (primary (exprAt n)) s = _
    rw [unary_of_ne (by simp [hlex]) (by simp [hlex]), primary_num hlex,
      numeral_of_cons hlex read, State.next_eq_past]
    rfl
  | var known =>
    intro n s rest hscopes hlex hn hend
    have hfollowing : s.following.text ≠ "(" := by
      rw [State.following_eq, State.next_eq_past]
      exact hend.call _ rfl
    show unary (primary (exprAt n)) s = _
    rw [unary_of_ne (by simp [hlex]) (by simp [hlex]), primary_of_following hlex hfollowing,
      variableUse_of_cons hlex (by rw [hscopes, known]), State.next_eq_past]
    rfl
  | @call callee es ls few args ih =>
    intro n s rest hscopes hlex hn hend
    have hnext := lexemes_next_of_cons (lexemes_next_of_cons hlex)
    have hshort : s.next.next.lexemes.length < n := by
      rw [hnext]
      rw [hlex] at hn
      exact Nat.lt_of_succ_le (Nat.le_of_succ_le hn)
    have hargs : loop (argumentStep (exprAt n)) [] s.next.next =
        .ok es (s.past (ls.length + 2)) := by
      rw [← State.next_past, ← State.next_past]
      exact ih [] hscopes hnext hshort (by rw [State.length_lexemes]; omega)
    show unary (primary (exprAt n)) s = _
    rw [unary_of_ne (by simp [hlex]) (by simp [hlex]), call_eq_of_ident hlex, bind_of_ok hargs,
      maxArguments_eq, if_pos few]
    rfl
  | @paren e ls inner ih =>
    intro n s rest hscopes hlex hn hend
    rw [List.cons_append, List.append_assoc] at hlex
    have hnext := lexemes_next_of_cons hlex
    have hshort : s.next.lexemes.length < n := by
      rw [hnext]
      rwa [hlex] at hn
    obtain ⟨hinner, hpast⟩ := ih.expr (s := s.next) hscopes hnext hshort (by simp)
    show unary (primary (exprAt n)) s = _
    rw [unary_of_ne (by simp [hlex]) (by simp [hlex]), primary_paren hlex hinner hpast,
      State.next_past, State.past_next, List.length_cons, List.length_append]
    rfl
  | lift below ih =>
    intro n s rest hscopes hlex hn hend
    exact .lift ((ih hscopes hlex hn (hend.mono (by omega))).ok hend)
  | @binary op l r ls rs left right ihl ihr =>
    intro n s rest hscopes hlex hn hend
    rw [List.append_assoc, List.cons_append] at hlex
    have hpast := State.lexemes_past hlex
    have hnext := lexemes_next_of_cons hpast
    have hlength : s.lexemes.length = ls.length + ((rs ++ rest).length + 1) := by
      rw [hlex, List.length_append, List.length_cons]
    have hleft : Reached n l s (s.past ls.length) (op.level + 1) := by
      refine ihl hscopes hlex hn ?_
      rw [State.current_toLexeme hpast]
      exact delimits_sign op ls
    have hbehind : (s.past ls.length).next.past rs.length =
        s.past (ls ++ .reserved op.sign :: rs).length := by
      rw [State.next_past, State.past_past, List.length_append, List.length_cons]
    rw [← hbehind] at hend ⊢
    rw [List.append_cons] at hend
    have hright : operandAt (exprAt n) op.level (s.past ls.length).next =
        .ok r ((s.past ls.length).next.past rs.length) :=
      (ihr (n := n) (s := (s.past ls.length).next) hscopes hnext (by rw [hnext]; omega)
        (hend.suffix.mono (by omega))).ok hend.suffix
    refine hleft.binary hpast hright ?_
    rw [← State.length_lexemes, ← State.length_lexemes, hpast, State.lexemes_past hnext,
      List.length_cons, List.length_append]
    omega
  | close =>
    intro n budget s rest before hscopes hlex hn hbudget
    obtain ⟨budget, rfl⟩ : ∃ b, budget = b + 1 := ⟨budget - 1, by omega⟩
    rw [iterate_inr budget (argumentStep_close before hlex), List.append_nil, State.next_eq_past]
    rfl
  | @last e ls arg ih =>
    intro n budget s rest before hscopes hlex hn hbudget
    rw [List.append_assoc] at hlex
    obtain ⟨hrun, hpast⟩ := ih.expr hscopes hlex hn (by simp)
    have hlength : s.lexemes.length = ls.length + (rest.length + 1) := by
      rw [hlex, List.length_append, List.length_append, List.length_singleton, Nat.add_comm 1]
    obtain ⟨budget, rfl⟩ : ∃ b, budget = b + 2 := ⟨budget - 2, by omega⟩
    rw [iterate_argument _ _ (by rw [hlex]; exact arg.head?_ne rfl (by decide) _), bind_of_ok hrun,
      bind_of_ok (separator_close hpast), iterate_inr budget (argumentStep_close _ hpast),
      State.past_next, List.length_append]
    rfl
  | @next e es ls ms arg more ih ihs =>
    intro n budget s rest before hscopes hlex hn hbudget
    rw [List.append_assoc, List.cons_append] at hlex
    obtain ⟨hrun, hpast⟩ := ih.expr hscopes hlex hn (by simp)
    have hnext := lexemes_next_of_cons hpast
    have hlength : s.lexemes.length = ls.length + ((ms ++ rest).length + 1) := by
      rw [hlex, List.length_append, List.length_cons]
    obtain ⟨budget, rfl⟩ : ∃ b, budget = b + 1 := ⟨budget - 1, by omega⟩
    have hmore : iterate (argumentStep (exprAt n)) budget (before ++ [e]) (s.past ls.length).next =
        .ok (before ++ [e] ++ es) ((s.past ls.length).next.past ms.length) :=
      ihs (s := (s.past ls.length).next) (before ++ [e]) hscopes hnext (by rw [hnext]; omega)
        (by rw [hnext]; omega)
    rw [iterate_argument _ _ (by rw [hlex]; exact arg.head?_ne rfl (by decide) _), bind_of_ok hrun,
      bind_of_ok (separator_comma hpast), hmore, State.next_past, State.past_past,
      List.length_append, List.length_cons, List.append_assoc]
    rfl

end Parser
end MicroGo
