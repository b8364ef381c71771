import MicroGo.Proofs.Grammar.Correspondence

/-!
# The lexemes of a tree can be derived

Each tree of the grammar spells lexemes that the rules derive (`derives_functions`).  The proof
follows the tree: one lemma for each form of a rule, and from these one for each sort of tree.
Lists with commas take a detour, since a tree ends such a list from its last member on and a rule
from its first one (`Separated`).
-/

namespace MicroGo
namespace Grammar

section Derives

variable {a b : Rhs} {ls ls' : List Lexeme}

theorem derives_lexeme (l : Lexeme) : Derives (.lexeme l) [l] :=
  ⟨.lexeme l, rfl⟩

theorem derives_kind (k : Lexeme.Kind) (text : String) : Derives (.kind k) [⟨k, text⟩] :=
  ⟨.kind k text, rfl⟩

theorem Derives.of_rule {n : Nonterminal} (h : Derives (rule n) ls) : Derives (.ref n) ls :=
  let ⟨d, hd⟩ := h
  ⟨.ref n d, hd⟩

theorem Derives.seq (ha : Derives a ls) (hb : Derives b ls') : Derives (a ++ b) (ls ++ ls') :=
  let ⟨d, hd⟩ := ha
  let ⟨e, he⟩ := hb
  ⟨.seq d e, by rw [← hd, ← he]; rfl⟩

theorem Derives.inl (h : Derives a ls) : Derives (a <|> b) ls :=
  let ⟨d, hd⟩ := h
  ⟨.inl d, hd⟩

theorem Derives.inr (h : Derives b ls) : Derives (a <|> b) ls :=
  let ⟨d, hd⟩ := h
  ⟨.inr d, hd⟩

theorem derives_none : Derives (.opt a) [] :=
  ⟨.none, rfl⟩

theorem Derives.some (h : Derives a ls) : Derives (.opt a) ls :=
  let ⟨d, hd⟩ := h
  ⟨.some d, hd⟩

theorem derives_nil : Derives (.many a) [] :=
  ⟨.nil, rfl⟩

theorem Derives.cons (h : Derives a ls) (hs : Derives (.many a) ls') :
    Derives (.many a) (ls ++ ls') :=
  let ⟨d, hd⟩ := h
  let ⟨ds, hds⟩ := hs
  ⟨.cons d ds, by rw [← hd, ← hds]; rfl⟩

theorem Derives.of_eq (h : Derives a ls) (heq : ls = ls') : Derives a ls' :=
  heq ▸ h

theorem Derives.opt {α : Type} {part : α → List Lexeme} (h : ∀ t, Derives a (part t))
    (o : Option α) : Derives (.opt a) (o.elim [] part) := by
  cases o with
  | none => exact derives_none
  | some t => exact (h t).some

end Derives

section Separated

variable {item : Rhs} {sign : Lexeme} {part ls : List Lexeme}

/-- The lexemes of a list with commas between its members and perhaps one behind, and then the
closing sign. -/
def Separated (item : Rhs) (sign : Lexeme) (ls : List Lexeme) : Prop :=
  ls = [sign] ∨
    ∃ first more trailing, Derives item first ∧ Derives (.many (.word "," ++ item)) more ∧
      Derives (.opt (.word ",")) trailing ∧ ls = first ++ more ++ trailing ++ [sign]

theorem Separated.last (h : Derives item part) : Separated item sign (part ++ [sign]) :=
  .inr ⟨part, [], [], h, derives_nil, derives_none, by simp⟩

theorem Separated.next (h : Derives item part) (hrest : Separated item sign ls) :
    Separated item sign (part ++ .reserved "," :: ls) := by
  rcases hrest with rfl | ⟨first, more, trailing, hfirst, hmore, htrailing, rfl⟩
  · exact .inr ⟨part, [], _, h, derives_nil, (derives_lexeme _).some, by simp⟩
  · exact .inr ⟨part, _, trailing, h, ((derives_lexeme _).seq hfirst).cons hmore, htrailing,
      by simp⟩

theorem Separated.derives (h : Separated item sign ls) :
    ∃ xs, Derives (.opt (item ++ .many (.word "," ++ item) ++ .opt (.word ","))) xs ∧
      ls = xs ++ [sign] := by
  rcases h with rfl | ⟨first, more, trailing, hfirst, hmore, htrailing, rfl⟩
  · exact ⟨[], derives_none, rfl⟩
  · exact ⟨_, ((hfirst.seq hmore).seq htrailing).some, rfl⟩

end Separated

/-- The nonterminal of the operands of a level. -/
def nonterminalOf : (level : Nat) → Nonterminal
  | 0 => .unary
  | 1 => .mul
  | 2 => .add
  | _ => .expr

open Rhs in
/-- The operators of a level, as they stand in its rule. -/
def operatorRule : (level : Nat) → Rhs
  | 0 => word "*" <|> word "/"
  | 1 => word "+" <|> word "-"
  | _ => word "==" <|> word "!=" <|> word "<" <|> word "<=" <|> word ">" <|> word ">="

theorem rule_nonterminalOf {level : Nat} (h : level < 3) :
    rule (nonterminalOf (level + 1)) = .ref (nonterminalOf level) ++
      .many (operatorRule level ++ .ref (nonterminalOf level)) := by
  obtain rfl | rfl | rfl : level = 0 ∨ level = 1 ∨ level = 2 := by omega
  · rfl
  · rfl
  · rfl

theorem derives_operator {level : Nat} (op : Operator level) :
    Derives (operatorRule level) [op.lexeme] := by
  have hmem := op.text_mem
  unfold Operator.lexeme
  match level with
  | 0 =>
      rcases (by simpa [operatorTexts, operators, Parser.products] using hmem :
        op.text = "*" ∨ op.text = "/") with h | h <;> rw [h]
      · exact (derives_lexeme _).inl
      · exact (derives_lexeme _).inr
  | 1 =>
      rcases (by simpa [operatorTexts, operators, Parser.sums] using hmem :
        op.text = "+" ∨ op.text = "-") with h | h <;> rw [h]
      · exact (derives_lexeme _).inl
      · exact (derives_lexeme _).inr
  | 2 =>
      rcases (by simpa [operatorTexts, operators, Parser.comparisons] using hmem :
        op.text = "==" ∨ op.text = "!=" ∨ op.text = "<" ∨ op.text = "<=" ∨ op.text = ">" ∨
          op.text = ">=") with h | h | h | h | h | h <;> rw [h]
      · exact (derives_lexeme _).inl
      · exact (derives_lexeme _).inl.inr
      · exact (derives_lexeme _).inl.inr.inr
      · exact (derives_lexeme _).inl.inr.inr.inr
      · exact (derives_lexeme _).inl.inr.inr.inr.inr
      · exact (derives_lexeme _).inr.inr.inr.inr.inr
  | _ + 3 => exact absurd hmem (by simp [operatorTexts, operators])

mutual

theorem derives_operand : ∀ {level : Nat} (t : Operand level), level ≤ 3 →
    Derives (.ref (nonterminalOf level)) t.lexemes
  | _, .unary signs operand, _ => by
      rw [Operand.lexemes]
      induction signs with
      | nil => exact .of_rule (derives_primary operand).inr
      | cons sign signs ih =>
          have hsign : Derives (.word "+" <|> .word "-") [sign.lexeme] := by
            cases sign with
            | plus => exact (derives_lexeme _).inl
            | minus => exact (derives_lexeme _).inr
          exact .of_rule (hsign.seq ih).inl
  | _, .chain first rest, h => by
      rw [Operand.lexemes]
      refine .of_rule ?_
      rw [rule_nonterminalOf (by omega)]
      exact (derives_operand first (by omega)).seq (derives_links rest (by omega))

theorem derives_links : ∀ {level : Nat} (t : Links level), level < 3 →
    Derives (.many (operatorRule level ++ .ref (nonterminalOf level))) t.lexemes
  | _, .nil, _ => by
      rw [Links.lexemes]
      exact derives_nil
  | _, .cons op operand rest, h => by
      rw [Links.lexemes]
      have hlink := (derives_operator op).seq (derives_operand operand (by omega))
      exact hlink.cons (derives_links rest h)

theorem derives_primary : ∀ t : Primary, Derives (.ref .primary) t.lexemes
  | .num text => by
      rw [Primary.lexemes]
      exact .of_rule (derives_kind _ text).inl
  | .name text => by
      rw [Primary.lexemes]
      exact .of_rule (derives_kind _ text).inl.inr
  | .call callee args => by
      obtain ⟨xs, hxs, hargs⟩ := (separated_args args).derives
      have hcall : Derives (.ref .funcCall) _ :=
        .of_rule ((((derives_kind .ident callee).seq (derives_lexeme _)).seq hxs).seq
          (derives_lexeme _))
      refine .of_rule (hcall.of_eq ?_).inl.inr.inr
      rw [Primary.lexemes, hargs]
      rfl
  | .paren inner => by
      have hinner := derives_operand inner (Nat.le_refl 3)
      have hparen := ((derives_lexeme (.reserved "(")).seq hinner).seq
        (derives_lexeme (.reserved ")"))
      refine .of_rule (hparen.of_eq ?_).inr.inr.inr
      rw [Primary.lexemes]
      rfl

theorem separated_args : ∀ t : Args, Separated (.ref .expr) (.reserved ")") t.lexemes
  | .close => by
      rw [Args.lexemes]
      exact .inl rfl
  | .last arg => by
      rw [Args.lexemes]
      exact .last (derives_operand arg (Nat.le_refl 3))
  | .next arg rest => by
      rw [Args.lexemes]
      exact .next (derives_operand arg (Nat.le_refl 3)) (separated_args rest)

end

theorem derives_expression (t : Expression) : Derives (.ref .expr) t.lexemes :=
  derives_operand t (Nat.le_refl 3)

theorem derives_value (t : Expression) : Derives (.word "=" ++ .ref .expr) (valueLexemes t) :=
  (derives_lexeme _).seq (derives_expression t)

theorem derives_simple (t : Simple) : Derives (.ref .simpleStmt) t.lexemes :=
  .of_rule ((derives_expression t.left).seq (.opt derives_value t.right))

theorem derives_local : ∀ t : Local, Derives (.ref .varDecl) (.reserved "var" :: t.lexemes)
  | .typed name value =>
      .of_rule (((derives_lexeme _).seq (derives_kind .ident name)).seq
        ((derives_lexeme _).seq (.opt derives_value value)).inl)
  | .inferred name value =>
      .of_rule (((derives_lexeme _).seq (derives_kind .ident name)).seq (derives_value value).inr)

theorem derives_init (init : Option Simple) :
    Derives (.opt (.ref .simpleStmt ++ .word ";")) (initLexemes init) :=
  .opt (fun t => (derives_simple t).seq (derives_lexeme _)) init

/-- A loop can be derived if its body can. -/
theorem derives_loop (head : LoopHead) {ls : List Lexeme}
    (hbody : Derives (.ref .block) (.reserved "\x7b" :: ls)) :
    Derives (.ref .forStmt) (.reserved "for" :: (head.lexemes ++ .reserved "\x7b" :: ls)) := by
  cases head with
  | forever => exact .of_rule (((derives_lexeme _).seq derives_none).seq hbody)
  | «while» cond =>
      have hcond : Derives (.ref .condition) cond.lexemes := .of_rule (derives_expression cond)
      exact .of_rule (((derives_lexeme _).seq hcond.inl.some).seq hbody)
  | clauses init cond post =>
      have hsign := derives_lexeme (.reserved ";")
      have hclauses := ((((Derives.opt derives_simple init).seq hsign).seq
        (.opt derives_expression cond)).seq hsign).seq (.opt derives_simple post)
      refine .of_rule ((((derives_lexeme _).seq hclauses.inr.some).seq hbody).of_eq ?_)
      simp [LoopHead.lexemes]

mutual

theorem derives_statement : ∀ t : Statement, Derives (.ref .statement) t.lexemes
  | .ret value => by
      rw [Statement.lexemes]
      exact .of_rule ((derives_lexeme _).seq (derives_expression value)).inl
  | .declare decl => by
      rw [Statement.lexemes]
      exact .of_rule (derives_local decl).inl.inr
  | .branch cases => by
      rw [Statement.lexemes]
      exact .of_rule (derives_conditional cases).inl.inr.inr
  | .loop head body => by
      rw [Statement.lexemes]
      exact .of_rule (derives_loop head (derives_block body)).inl.inr.inr.inr
  | .block body => by
      rw [Statement.lexemes]
      exact .of_rule (derives_block body).inl.inr.inr.inr.inr
  | .simple stmt => by
      rw [Statement.lexemes]
      exact .of_rule (derives_simple stmt).inr.inr.inr.inr.inr

theorem derives_conditional : ∀ t : Conditional,
    Derives (.ref .ifStmt) (.reserved "if" :: t.lexemes)
  | .mk init cond body other => by
      have hfront := ((derives_lexeme (.reserved "if")).seq (derives_init init)).seq
        (derives_expression cond)
      refine .of_rule (((hfront.seq (derives_block body)).seq (derives_otherwise other)).of_eq ?_)
      rw [Conditional.lexemes]
      simp

theorem derives_otherwise : ∀ t : Otherwise,
    Derives (.opt (.word "else" ++ (.ref .ifStmt <|> .ref .block))) t.lexemes
  | .none => by
      rw [Otherwise.lexemes]
      exact derives_none
  | .elseIf cases => by
      rw [Otherwise.lexemes]
      exact ((derives_lexeme _).seq (derives_conditional cases).inl).some
  | .elseBlock body => by
      rw [Otherwise.lexemes]
      exact ((derives_lexeme _).seq (derives_block body).inr).some

theorem derives_block (t : Body) : Derives (.ref .block) (.reserved "\x7b" :: t.lexemes) := by
  obtain ⟨stmts, last, hstmts, hlast, hlexemes⟩ := derives_body t
  rw [hlexemes]
  exact .of_rule ((((derives_lexeme _).seq hstmts).seq hlast).seq (derives_lexeme _))

/-- The statements of a block up to the last semicolon, a last statement, and the brace. -/
theorem derives_body : ∀ t : Body, ∃ stmts last,
    Derives (.many (.word ";" <|> .ref .statement ++ .word ";")) stmts ∧
      Derives (.opt (.ref .statement)) last ∧ t.lexemes = stmts ++ last ++ [.reserved "\x7d"]
  | .close => ⟨[], [], derives_nil, derives_none, by rw [Body.lexemes]; rfl⟩
  | .skip rest => by
      obtain ⟨stmts, last, hstmts, hlast, hlexemes⟩ := derives_body rest
      exact ⟨_, last, (derives_lexeme _).inl.cons hstmts, hlast,
        by rw [Body.lexemes, hlexemes]; rfl⟩
  | .last stmt =>
      ⟨[], _, derives_nil, (derives_statement stmt).some, by rw [Body.lexemes]; rfl⟩
  | .next stmt rest => by
      obtain ⟨stmts, last, hstmts, hlast, hlexemes⟩ := derives_body rest
      refine ⟨_, last, ((derives_statement stmt).seq (derives_lexeme _)).inr.cons hstmts, hlast, ?_⟩
      rw [Body.lexemes, hlexemes]
      simp

end

theorem derives_param (name : String) : Derives (.ref .param) [⟨.ident, name⟩, typeLexeme] :=
  .of_rule ((derives_kind .ident name).seq (derives_lexeme typeLexeme))

theorem separated_params (t : Params) : Separated (.ref .param) (.reserved ")") t.lexemes := by
  induction t with
  | close => exact .inl rfl
  | last name => exact .last (derives_param name)
  | next name rest ih => exact .next (derives_param name) ih

theorem derives_function (f : Function) : Derives (.ref .functionDecl) f.lexemes := by
  obtain ⟨xs, hxs, hparams⟩ := (separated_params f.params).derives
  have htyped : Derives (.opt .int) (if f.typed then [typeLexeme] else []) := by
    cases f.typed with
    | true => exact (derives_lexeme _).some
    | false => exact derives_none
  have hfront := ((((derives_lexeme (.reserved "func")).seq (derives_kind .ident f.name)).seq
    (derives_lexeme (.reserved "("))).seq hxs).seq (derives_lexeme (.reserved ")"))
  refine .of_rule (((hfront.seq htyped).seq (derives_block f.body)).of_eq ?_)
  simp [Function.lexemes, Function.signature, hparams]

/-- **The lexemes of functions can be derived.** -/
theorem derives_functions (fs : List Function) :
    Derives (.ref .program) (functionLexemes fs ++ [⟨.eof, ""⟩]) := by
  have hmany : Derives (.many (.ref .functionDecl ++ .word ";")) (functionLexemes fs) := by
    induction fs with
    | nil => exact derives_nil
    | cons f fs ih => exact ((derives_function f).seq (derives_lexeme _)).cons ih
  exact .of_rule (hmany.seq (derives_lexeme _))

end Grammar
end MicroGo
