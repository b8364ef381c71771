import MicroGo.Proofs.Grammar.Phrases

/-!
# Writing expressions

An expression is written as lexemes, with parentheses where its tree asks for them.  An operand of a
level needs them if the expression is joined by an operator of a higher level.  A style says where
else parentheses stand, and where a comma stands behind the last argument of a call.  With no other
parentheses there are as few as possible, and with parentheses everywhere each subexpression has its
own.

What is written is a phrase for the expression, so it is read as the expression.
-/

namespace MicroGo

open Grammar

/-! ## Numerals -/

namespace Numeral

theorem integer?_of_isDigit {cs : List Char} (h : cs.all Char.isDigit) :
    integer? cs = (digits? cs).map fun n => (n : Int) := by
  unfold integer?
  split
  · simp at h
  · simp at h
  · rfl

/-- A word that is not negative is read back from its decimal digits. -/
theorem read?_toString {value : Int64} (h : 0 ≤ value) : read? (toString value) = some value := by
  have hnonneg : 0 ≤ value.toInt := Int64.le_iff_toInt_le.1 h
  obtain ⟨n, hn⟩ := Int.eq_ofNat_of_zero_le hnonneg
  have hdigits : (Nat.toDigits 10 n).all Char.isDigit :=
    List.all_eq_true.2 fun _ hc => Nat.isDigit_of_mem_toDigits (by decide) (by decide) hc
  have htext : (toString value).toList = Nat.toDigits 10 n := by
    show (toString value.toInt).toList = _
    rw [hn]
    show (Nat.repr n).toList = _
    rw [Nat.repr_eq_ofList_toDigits, String.toList_ofList]
  have hvalue : digits? (Nat.toDigits 10 n) = some n := by
    rw [digits?, if_pos ⟨Nat.toDigits_ne_nil, hdigits⟩, Nat.ofDigitChars_ten_toDigits]
  rw [read?, htext, integer?_of_isDigit hdigits, hvalue]
  show word? (n : Int) = _
  rw [word?, ← hn, if_pos ⟨value.minValue_le_toInt, value.toInt_le⟩, Int64.ofInt_toInt]

end Numeral

/-! ## Rendering -/

/-- How expressions are written: the names of the variables, where parentheses stand that the tree
does not ask for, and which argument lists end in a comma.  A place is the path to it, the last
branch first. -/
structure Style where
  name : VarId → String
  parens : List Nat → Bool
  comma : List Nat → Bool

/-- The least level that the expression is an operand of without parentheses. -/
def Expr.level : Expr → Nat
  | .binary op _ _ => op.level + 1
  | _ => 0

theorem Expr.level_le (e : Expr) : e.level ≤ 3 := by
  cases e with
  | binary op l r => exact (by cases op <;> decide : op.level + 1 ≤ 3)
  | _ => exact Nat.zero_le 3

/-- The lexemes of an expression where an operand of the level is asked for. -/
def Style.enclose (style : Style) (path : List Nat) (level : Nat) (e : Expr) (ls : List Lexeme) :
    List Lexeme :=
  if style.parens path ∨ level < e.level then .reserved "(" :: (ls ++ [.reserved ")"]) else ls

mutual

/-- The lexemes of an expression, without parentheses around it. -/
def Expr.inside (style : Style) (path : List Nat) : Expr → List Lexeme
  | .num value => [⟨.num, toString value⟩]
  | .var id => [⟨.ident, style.name id⟩]
  | .binary op l r =>
      style.enclose (0 :: path) (op.level + 1) l (Expr.inside style (0 :: path) l) ++
        .reserved op.sign ::
          style.enclose (1 :: path) op.level r (Expr.inside style (1 :: path) r)
  | .call callee args =>
      ⟨.ident, callee⟩ :: .reserved "(" :: Expr.argumentsInside style path 0 args

/-- The lexemes of the arguments from the `i`-th one on, with the closing parenthesis. -/
def Expr.argumentsInside (style : Style) (path : List Nat) (i : Nat) : List Expr → List Lexeme
  | [] => [.reserved ")"]
  | e :: es =>
      style.enclose (i :: path) 3 e (Expr.inside style (i :: path) e) ++
        if es ≠ [] ∨ style.comma path then
          .reserved "," :: Expr.argumentsInside style path (i + 1) es
        else [.reserved ")"]

end

/-- **The expression in a given style**, where an operand of the level is asked for. -/
def Expr.render (style : Style) (path : List Nat) (level : Nat) (e : Expr) : List Lexeme :=
  style.enclose path level e (e.inside style path)

mutual

/-- The expression can be written: its numbers have numerals, its calls are not too long, and the
names of its variables stand for them. -/
def Expr.Writable (scopes : Scopes) (name : VarId → String) : Expr → Prop
  | .num value => 0 ≤ value
  | .var id => scopes.find? (name id) = some id
  | .binary _ l r => Expr.Writable scopes name l ∧ Expr.Writable scopes name r
  | .call _ args => args.length ≤ 6 ∧ Expr.AllWritable scopes name args

/-- The expressions can be written. -/
def Expr.AllWritable (scopes : Scopes) (name : VarId → String) : List Expr → Prop
  | [] => True
  | e :: es => Expr.Writable scopes name e ∧ Expr.AllWritable scopes name es

end

namespace Grammar

variable {scopes : Scopes} {style : Style} {e : Expr} {ls : List Lexeme}

/-! ## What is written is a phrase -/

theorem Phrase.mono {level level' : Nat} (h : Phrase scopes (.operand level e) ls)
    (hle : level ≤ level') : Phrase scopes (.operand level' e) ls := by
  induction hle with
  | refl => exact h
  | step _ ih => exact ih.lift

/-- Parentheses stand at least where they are needed. -/
theorem phrase_enclose (h : Phrase scopes (.operand e.level e) ls) (path : List Nat)
    (level : Nat) : Phrase scopes (.operand level e) (style.enclose path level e ls) := by
  unfold Style.enclose
  split
  · exact (h.mono e.level_le).paren.mono (Nat.zero_le level)
  · next hnot => exact h.mono (Nat.le_of_not_lt fun hlt => hnot (.inr hlt))

mutual

theorem phrase_inside : ∀ (e : Expr) (path : List Nat), e.Writable scopes style.name →
    Phrase scopes (.operand e.level e) (e.inside style path)
  | .num value, path, h => by
      rw [Expr.Writable] at h
      rw [Expr.inside]
      exact .num (Numeral.read?_toString h)
  | .var id, path, h => by
      rw [Expr.Writable] at h
      rw [Expr.inside]
      exact .var h
  | .binary op l r, path, h => by
      rw [Expr.Writable] at h
      rw [Expr.inside]
      exact .binary (phrase_enclose (phrase_inside l _ h.1) _ _)
        (phrase_enclose (phrase_inside r _ h.2) _ _)
  | .call callee args, path, h => by
      rw [Expr.Writable] at h
      rw [Expr.inside]
      exact .call h.1 (phrase_argumentsInside args path 0 h.2)

theorem phrase_argumentsInside : ∀ (es : List Expr) (path : List Nat) (i : Nat),
    Expr.AllWritable scopes style.name es →
    Phrase scopes (.args es) (Expr.argumentsInside style path i es)
  | [], path, i, _ => by
      rw [Expr.argumentsInside]
      exact .close
  | e :: es, path, i, h => by
      rw [Expr.AllWritable] at h
      rw [Expr.argumentsInside]
      have harg : Phrase scopes (.operand 3 e)
          (style.enclose (i :: path) 3 e (e.inside style (i :: path))) :=
        phrase_enclose (phrase_inside e (i :: path) h.1) (i :: path) 3
      split
      · exact .next harg (phrase_argumentsInside es path (i + 1) h.2)
      · next hnot =>
          obtain rfl : es = [] := not_not.1 fun hne => hnot (.inl hne)
          exact .last harg

end

theorem phrase_render (he : e.Writable scopes style.name) (path : List Nat) (level : Nat) :
    Phrase scopes (.operand level e) (e.render style path level) :=
  phrase_enclose (phrase_inside e path he) path level

/-! ## No phrase has fewer parentheses -/

/-- The number of opening parentheses. -/
def openings (ls : List Lexeme) : Nat :=
  ls.count (.reserved "(")

theorem openings_append (ls ms : List Lexeme) : openings (ls ++ ms) = openings ls + openings ms :=
  List.count_append

theorem openings_cons {l : Lexeme} (h : l ≠ .reserved "(") (ls : List Lexeme) :
    openings (l :: ls) = openings ls :=
  List.count_cons_of_ne h

theorem openings_paren (ls : List Lexeme) : openings (.reserved "(" :: ls) = openings ls + 1 :=
  List.count_cons_self

/-- The style puts no parentheses where they are not needed. -/
theorem openings_enclose (hstyle : ∀ path, style.parens path = false) (path : List Nat)
    (level : Nat) (e : Expr) (ls : List Lexeme) :
    openings (style.enclose path level e ls) = openings ls + if level < e.level then 1 else 0 := by
  unfold Style.enclose
  rw [hstyle]
  by_cases hlt : level < e.level
  · rw [if_pos (.inr hlt), if_pos hlt, openings_paren, openings_append]
    rfl
  · rw [if_neg (by simpa using hlt), if_neg hlt]
    rfl

/-- The lexemes have at least as many parentheses as the subject written in the style. -/
def Subject.NoFewer (style : Style) (ls : List Lexeme) : Subject → Prop
  | .operand level e => ∀ path, openings (e.render style path level) ≤ openings ls
  | .args es => ∀ path i, openings (Expr.argumentsInside style path i es) ≤ openings ls

theorem noFewer_of_phrase (hstyle : ∀ path, style.parens path = false) {subject : Subject}
    (h : Phrase scopes subject ls) : subject.NoFewer style ls := by
  induction h with
  | num read =>
    intro path
    rw [Expr.render, openings_enclose hstyle, Expr.inside]
    exact Nat.zero_le _
  | var known =>
    intro path
    rw [Expr.render, openings_enclose hstyle, Expr.inside]
    exact Nat.zero_le _
  | call few args ih =>
    intro path
    rw [Expr.render, openings_enclose hstyle, Expr.inside, openings_cons (by simp), openings_paren,
      openings_cons (by simp), openings_paren]
    exact Nat.succ_le_succ (ih path 0)
  | @paren e ls inner ih =>
    intro path
    have hinner := ih path
    rw [Expr.render, openings_enclose hstyle, if_neg (Nat.not_lt.2 e.level_le)] at hinner
    rw [Expr.render, openings_enclose hstyle, openings_paren, openings_append]
    split <;> omega
  | @lift level e ls below ih =>
    intro path
    have hbelow := ih path
    rw [Expr.render, openings_enclose hstyle] at hbelow ⊢
    split <;> split at hbelow <;> omega
  | @binary op l r ls rs left right ihl ihr =>
    intro path
    have hlevel : ¬op.level + 1 < (Expr.binary op l r).level := Nat.lt_irrefl _
    have hsign : Lexeme.reserved op.sign ≠ .reserved "(" := by cases op <;> decide
    have hl := ihl (0 :: path)
    have hr := ihr (1 :: path)
    rw [Expr.render] at hl hr
    rw [Expr.render, openings_enclose hstyle, if_neg hlevel, Expr.inside, openings_append,
      openings_cons hsign, openings_append, openings_cons hsign]
    omega
  | close =>
    intro path i
    exact Nat.le_of_eq (by rw [Expr.argumentsInside])
  | last arg ih =>
    intro path i
    have harg := ih (i :: path)
    rw [Expr.render] at harg
    rw [Expr.argumentsInside, openings_append, openings_append]
    split
    · exact Nat.add_le_add harg (by rw [Expr.argumentsInside]; decide)
    · exact Nat.add_le_add_right harg _
  | @next e es ls ms arg more ih ihs =>
    intro path i
    have harg := ih (i :: path)
    rw [Expr.render] at harg
    rw [Expr.argumentsInside, openings_append, openings_append,
      openings_cons (l := .reserved ",") (by decide)]
    split
    · rw [openings_cons (by decide)]
      exact Nat.add_le_add harg (ihs path (i + 1))
    · exact Nat.add_le_add harg (Nat.zero_le _)

end Grammar

namespace Parser

/-- The lexeme goes on with an expression that ends as the lexemes do: it is an operator, or it
makes a call of a name. -/
def Continues (ls : List Lexeme) (l : Lexeme) : Prop :=
  (l.kind = .reserved ∧ l.text ∈ ["==", "!=", "<", "<=", ">", ">=", "+", "-", "*", "/"]) ∨
    ((∃ name, ls.getLast? = some ⟨.ident, name⟩) ∧ l.text = "(")

theorem delimits_of_not_continues {ls : List Lexeme} {l : Lexeme} (h : ¬Continues ls l) :
    Delimits 3 ls l := by
  have htexts : ∀ k < 3, ∀ text ∈ operatorTexts k,
      text ∈ ["==", "!=", "<", "<=", ">", ">=", "+", "-", "*", "/"] := by decide
  refine ⟨fun k hk => ?_, fun name hname htext => h (.inr ⟨⟨name, hname⟩, htext⟩)⟩
  unfold Operators.ofLexeme?
  split
  · next hkind =>
      exact lookup_operators_eq_none fun hmem => h (.inl ⟨hkind, htexts k hk _ hmem⟩)
  · rfl

/-- **Expressions that are written are read back**, whatever parentheses stand beyond those that
are needed: none, so that no phrase for the expression has fewer, or some, or those around every
subexpression; and with or without a comma behind the last argument of each call.  If what follows
does not go on with it, then the expression is read, and exactly what was written is taken. -/
theorem expr_render {s : State} {e : Expr} {name : VarId → String} {parens comma : List Nat → Bool}
    {ls rest : List Lexeme} (he : e.Writable s.scopes name)
    (hls : ls = e.render ⟨name, parens, comma⟩ [] 3) (hlex : s.lexemes = ls ++ rest)
    (hend : ¬Continues ls (s.past ls.length).current.toLexeme) :
    expr s = .ok e { s with ahead := s.ahead.drop ls.length } ∧
      ((∀ path, parens path = false) → ∀ ms, Phrase s.scopes (.operand 3 e) ms →
        ls.count (.reserved "(") ≤ ms.count (.reserved "(")) := by
  subst hls
  refine ⟨?_, fun hparens ms hms => noFewer_of_phrase hparens hms []⟩
  have hphrase : Phrase s.scopes (.operand 3 e) (e.render ⟨name, parens, comma⟩ [] 3) :=
    phrase_render he [] 3
  have hdelimits := delimits_of_not_continues hend
  have hreached := readsAs_of_phrase hphrase rfl hlex (Nat.le_of_eq s.length_lexemes)
    (hdelimits.mono (by decide))
  exact hreached.ok hdelimits

/-- A difference within a difference, with a call that has a comma behind its argument, at the end
of the input; and a name that two scopes know. -/
theorem expr_render_difference : ∃ s t : State,
    s.lexemes = [⟨.ident, "a"⟩, .reserved "-", .reserved "(", ⟨.num, "7"⟩, .reserved "-",
      ⟨.ident, "f"⟩, .reserved "(", ⟨.ident, "b"⟩, .reserved ",", .reserved ")", .reserved ")"] ∧
    s.scopes = [[("b", 1)], [("b", 2), ("a", 0)]] ∧ t.ahead = [] ∧
    expr s = .ok (.binary .sub (.var 0) (.binary .sub (.num 7) (.call "f" [.var 1]))) t := by
  let e : Expr := .binary .sub (.var 0) (.binary .sub (.num 7) (.call "f" [.var 1]))
  let name : VarId → String := fun id => if id = 0 then "a" else "b"
  let ls : List Lexeme := [⟨.ident, "a"⟩, .reserved "-", .reserved "(", ⟨.num, "7"⟩,
    .reserved "-", ⟨.ident, "f"⟩, .reserved "(", ⟨.ident, "b"⟩, .reserved ",", .reserved ")",
    .reserved ")"]
  have he : e.Writable [[("b", 1)], [("b", 2), ("a", 0)]] name := by
    have hseven : (0 : Int64) ≤ 7 := by decide
    exact ⟨rfl, hseven, by decide, rfl, trivial⟩
  have hls : ls = e.render ⟨name, fun _ => false, fun _ => true⟩ [] 3 := by decide +kernel
  let s : State := ⟨ls.map (⟨·, .start⟩), .endOfInput .start, [[("b", 1)], [("b", 2), ("a", 0)]],
    [], #[]⟩
  have hend : ¬Continues ls (s.past ls.length).current.toLexeme := by
    rw [show (s.past ls.length).current.toLexeme = ⟨.eof, ""⟩ from rfl]
    simp [Continues]
  have hlex : s.lexemes = ls ++ [] := rfl
  exact ⟨s, _, rfl, rfl, rfl, (expr_render he hls hlex hend).1⟩

end Parser
end MicroGo
