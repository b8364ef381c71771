import Mathlib.Tactic.Common
import MicroGo.Program.Parser.Function

/-!
# The grammar

The sentences of the language as trees, apart from any reading of them.  A tree holds exactly the
choices that the grammar leaves open, and `lexemes` writes the tree out.  A list of tokens spells a
tree when the lexemes before its end of input are those of the tree.

## Levels

The three levels of operators are one family of trees.  An operand of level `0` is a primary
behind signs, and an operand of level `k + 1` is a chain of operands of level `k` joined by the
operators of that level.  An expression is an operand of level `3`.

## Lists with separators

Arguments, parameters and the statements of a block are read up to a closing sign, and the sign
that separates two members may also stand behind the last one.  Their trees say for each member
whether the closing sign (`last`) or the separator (`next`) follows it.
-/

namespace MicroGo
namespace Grammar

open MicroGo.Parser (Operators products sums comparisons)

/-! ## Expressions -/

/-- A sign in front of an operand. -/
inductive Sign where
  | plus
  | minus
deriving DecidableEq

/-- The sign as it is written. -/
def Sign.lexeme : Sign → Lexeme
  | plus => .reserved "+"
  | minus => .reserved "-"

/-- The operators that join operands of a level. -/
def operators : (level : Nat) → Operators
  | 0 => products
  | 1 => sums
  | 2 => comparisons
  | _ => []

/-- An operator that joins operands of a level. -/
structure Operator (level : Nat) where
  text : String
  combine : Expr → Expr → Expr
  listed : (operators level).lookup text = some combine

/-- The operator as it is written. -/
def Operator.lexeme {level : Nat} (op : Operator level) : Lexeme :=
  .reserved op.text

mutual

/-- Operands of a level. -/
inductive Operand : Nat → Type where
  | unary (signs : List Sign) (operand : Primary) : Operand 0
  | chain {level : Nat} (first : Operand level) (rest : Links level) : Operand (level + 1)

/-- The operators of a chain behind its first operand, each with the operand after it. -/
inductive Links : Nat → Type where
  | nil {level : Nat} : Links level
  | cons {level : Nat} (op : Operator level) (operand : Operand level) (rest : Links level) :
      Links level

/-- Expressions that no operator and no sign stands in. -/
inductive Primary : Type where
  | num (text : String)
  | name (text : String)
  | call (callee : String) (args : Args)
  | paren (inner : Operand 3)

/-- Arguments behind the opening parenthesis. -/
inductive Args : Type where
  | close
  | last (arg : Operand 3)
  | next (arg : Operand 3) (rest : Args)

end

/-- Expressions. -/
abbrev Expression := Operand 3

mutual

/-- An operand as it is written. -/
def Operand.lexemes : {level : Nat} → Operand level → List Lexeme
  | _, .unary signs operand => signs.map Sign.lexeme ++ operand.lexemes
  | _, .chain first rest => first.lexemes ++ rest.lexemes

/-- The rest of a chain as it is written. -/
def Links.lexemes : {level : Nat} → Links level → List Lexeme
  | _, .nil => []
  | _, .cons op operand rest => op.lexeme :: (operand.lexemes ++ rest.lexemes)

/-- A primary as it is written. -/
def Primary.lexemes : Primary → List Lexeme
  | .num text => [⟨.num, text⟩]
  | .name text => [⟨.ident, text⟩]
  | .call callee args => ⟨.ident, callee⟩ :: .reserved "(" :: args.lexemes
  | .paren inner => .reserved "(" :: (inner.lexemes ++ [.reserved ")"])

/-- Arguments as they are written. -/
def Args.lexemes : Args → List Lexeme
  | .close => [.reserved ")"]
  | .last arg => arg.lexemes ++ [.reserved ")"]
  | .next arg rest => arg.lexemes ++ .reserved "," :: rest.lexemes

end

/-! ## Statements -/

/-- An expression, or an assignment of the right one to the left one. -/
structure Simple where
  left : Expression
  right : Option Expression

/-- A local variable, whose type may be left open if there is a first value. -/
inductive Local where
  | typed (name : String) (value : Option Expression)
  | inferred (name : String) (value : Expression)

/-- The head of a loop. -/
inductive LoopHead where
  | forever
  | while (cond : Expression)
  | clauses (init : Option Simple) (cond : Option Expression) (post : Option Simple)

mutual

/-- Statements. -/
inductive Statement : Type where
  | ret (value : Expression)
  | declare (decl : Local)
  | branch (cases : Conditional)
  | loop (head : LoopHead) (body : Body)
  | block (body : Body)
  | simple (stmt : Simple)

/-- A conditional behind its first word. -/
inductive Conditional : Type where
  | mk (init : Option Simple) (cond : Expression) (body : Body) (other : Otherwise)

/-- The other case of a conditional. -/
inductive Otherwise : Type where
  | none
  | elseIf (cases : Conditional)
  | elseBlock (body : Body)

/-- The statements of a block behind its opening brace. -/
inductive Body : Type where
  | close
  | skip (rest : Body)
  | last (stmt : Statement)
  | next (stmt : Statement) (rest : Body)

end

/-- The name of the one type. -/
def typeLexeme : Lexeme :=
  ⟨.ident, "int"⟩

/-- A value behind an equals sign. -/
def valueLexemes (value : Expression) : List Lexeme :=
  .reserved "=" :: value.lexemes

/-- A simple statement as it is written. -/
def Simple.lexemes (stmt : Simple) : List Lexeme :=
  stmt.left.lexemes ++ stmt.right.elim [] valueLexemes

/-- A declaration as it is written behind its first word. -/
def Local.lexemes : Local → List Lexeme
  | typed name value => ⟨.ident, name⟩ :: typeLexeme :: value.elim [] valueLexemes
  | inferred name value => ⟨.ident, name⟩ :: valueLexemes value

/-- The head of a loop as it is written. -/
def LoopHead.lexemes : LoopHead → List Lexeme
  | forever => []
  | .while cond => cond.lexemes
  | clauses init cond post =>
      init.elim [] Simple.lexemes ++ .reserved ";" :: (cond.elim [] Operand.lexemes ++
        .reserved ";" :: post.elim [] Simple.lexemes)

/-- The statement in front of a condition as it is written. -/
def initLexemes (init : Option Simple) : List Lexeme :=
  init.elim [] fun stmt => stmt.lexemes ++ [.reserved ";"]

mutual

/-- A statement as it is written. -/
def Statement.lexemes : Statement → List Lexeme
  | .ret value => .reserved "return" :: value.lexemes
  | .declare decl => .reserved "var" :: decl.lexemes
  | .branch cases => .reserved "if" :: cases.lexemes
  | .loop head body => .reserved "for" :: (head.lexemes ++ .reserved "\x7b" :: body.lexemes)
  | .block body => .reserved "\x7b" :: body.lexemes
  | .simple stmt => stmt.lexemes

/-- A conditional as it is written. -/
def Conditional.lexemes : Conditional → List Lexeme
  | .mk init cond body other =>
      initLexemes init ++ (cond.lexemes ++ .reserved "\x7b" :: (body.lexemes ++ other.lexemes))

/-- The other case of a conditional as it is written. -/
def Otherwise.lexemes : Otherwise → List Lexeme
  | .none => []
  | .elseIf cases => .reserved "else" :: .reserved "if" :: cases.lexemes
  | .elseBlock body => .reserved "else" :: .reserved "\x7b" :: body.lexemes

/-- The statements of a block as they are written. -/
def Body.lexemes : Body → List Lexeme
  | .close => [.reserved "\x7d"]
  | .skip rest => .reserved ";" :: rest.lexemes
  | .last stmt => stmt.lexemes ++ [.reserved "\x7d"]
  | .next stmt rest => stmt.lexemes ++ .reserved ";" :: rest.lexemes

end

/-! ## Functions and programs -/

/-- Parameters behind the opening parenthesis. -/
inductive Params where
  | close
  | last (name : String)
  | next (name : String) (rest : Params)

/-- Parameters as they are written. -/
def Params.lexemes : Params → List Lexeme
  | .close => [.reserved ")"]
  | .last name => [⟨.ident, name⟩, typeLexeme, .reserved ")"]
  | .next name rest => ⟨.ident, name⟩ :: typeLexeme :: .reserved "," :: rest.lexemes

/-- A function, which may say what type its result has. -/
structure Function where
  name : String
  params : Params
  typed : Bool
  body : Body

/-- The part of a function behind its opening parenthesis as it is written. -/
def Function.signature (f : Function) : List Lexeme :=
  f.params.lexemes ++ ((if f.typed then [typeLexeme] else []) ++
    .reserved "\x7b" :: f.body.lexemes)

/-- A function as it is written. -/
def Function.lexemes (f : Function) : List Lexeme :=
  .reserved "func" :: ⟨.ident, f.name⟩ :: .reserved "(" :: f.signature

/-- A program: one function or more. -/
structure Program where
  first : Function
  rest : List Function

/-- The functions of a program in the order of the text. -/
def Program.functions (p : Program) : List Function :=
  p.first :: p.rest

/-- **The number of arguments and of parameters is limited.**  What is said about programs writes
the limit out; it is the one that the parser keeps to. -/
theorem maxArguments_eq : maxArguments = 6 :=
  rfl

/-- Functions as they are written, each before a semicolon. -/
def functionLexemes (fs : List Function) : List Lexeme :=
  fs.flatMap fun f => f.lexemes ++ [.reserved ";"]

/-- The lexemes of a list of tokens before its end of input. -/
def lexemesOf (tokens : List Token) : List Lexeme :=
  (Parser.State.ofTokens tokens).ahead.map Token.toLexeme

/-- The tokens spell the program. -/
def Spells (tokens : List Token) (p : Program) : Prop :=
  lexemesOf tokens = functionLexemes p.functions

/-! ## How sentences begin -/

/-- An expression can begin with the lexeme. -/
def opensExpression (l : Lexeme) : Bool :=
  l.kind = .num ∨ l.kind = .ident ∨ l ∈ [.reserved "(", .reserved "+", .reserved "-"]

/-- A statement can begin with the lexeme. -/
def opensStatement (l : Lexeme) : Bool :=
  opensExpression l ∨
    l ∈ [.reserved "return", .reserved "var", .reserved "if", .reserved "for", .reserved "\x7b"]

theorem Primary.exists_cons (t : Primary) :
    ∃ l ls, t.lexemes = l :: ls ∧ opensExpression l := by
  cases t with
  | num text => exact ⟨_, _, rfl, by simp [opensExpression]⟩
  | name text => exact ⟨_, _, rfl, by simp [opensExpression]⟩
  | call callee args => exact ⟨_, _, rfl, by simp [opensExpression]⟩
  | paren inner => exact ⟨_, _, rfl, by decide⟩

/-- An operand is not empty, and begins as an expression does. -/
theorem Operand.exists_cons : ∀ {level : Nat} (t : Operand level),
    ∃ l ls, t.lexemes = l :: ls ∧ opensExpression l
  | _, .unary [] operand => operand.exists_cons
  | _, .unary (.plus :: _) _ => ⟨_, _, rfl, by decide⟩
  | _, .unary (.minus :: _) _ => ⟨_, _, rfl, by decide⟩
  | _, .chain first rest => by
      obtain ⟨l, ls, hl, hopens⟩ := first.exists_cons
      exact ⟨l, ls ++ rest.lexemes, by rw [Operand.lexemes, hl, List.cons_append], hopens⟩

theorem Simple.exists_cons (t : Simple) :
    ∃ l ls, t.lexemes = l :: ls ∧ opensExpression l := by
  obtain ⟨l, ls, hl, hopens⟩ := t.left.exists_cons
  exact ⟨l, _, by rw [Simple.lexemes, hl, List.cons_append], hopens⟩

/-- A statement is not empty, and begins with an expression or with a word or sign of its own. -/
theorem Statement.exists_cons (t : Statement) :
    ∃ l ls, t.lexemes = l :: ls ∧ opensStatement l := by
  cases t with
  | ret value => exact ⟨_, _, by rw [Statement.lexemes], by decide⟩
  | declare decl => exact ⟨_, _, by rw [Statement.lexemes], by decide⟩
  | branch cases => exact ⟨_, _, by rw [Statement.lexemes], by decide⟩
  | loop head body => exact ⟨_, _, by rw [Statement.lexemes], by decide⟩
  | block body => exact ⟨_, _, by rw [Statement.lexemes], by decide⟩
  | simple stmt =>
      obtain ⟨l, ls, hl, hopens⟩ := stmt.exists_cons
      exact ⟨l, ls, by rw [Statement.lexemes, hl], by simp [opensStatement, hopens]⟩

/-- An expression begins with no word or sign that opens none. -/
theorem Operand.head?_ne {level : Nat} (t : Operand level) (rest : List Lexeme) {text : String}
    (h : opensExpression (.reserved text) = false) :
    (t.lexemes ++ rest).head? ≠ some (.reserved text) := by
  obtain ⟨l, ls, hl, hopens⟩ := t.exists_cons
  rw [hl]
  rintro ⟨⟩
  exact absurd hopens (by simp [h])

theorem Simple.head?_ne (t : Simple) (rest : List Lexeme) {text : String}
    (h : opensExpression (.reserved text) = false) :
    (t.lexemes ++ rest).head? ≠ some (.reserved text) := by
  rw [Simple.lexemes, List.append_assoc]
  exact t.left.head?_ne _ h

/-- A statement begins with no word or sign that opens none. -/
theorem Statement.head?_ne (t : Statement) (rest : List Lexeme) {text : String}
    (h : opensStatement (.reserved text) = false) :
    (t.lexemes ++ rest).head? ≠ some (.reserved text) := by
  obtain ⟨l, ls, hl, hopens⟩ := t.exists_cons
  rw [hl]
  rintro ⟨⟩
  exact absurd hopens (by simp [h])

/-! ## Levels are apart -/

/-- The texts of the operators of a level. -/
def operatorTexts (level : Nat) : List String :=
  (operators level).map Prod.fst

theorem lookup_operators_eq_none {level : Nat} {text : String} (h : text ∉ operatorTexts level) :
    (operators level).lookup text = none := by
  rw [List.lookup_eq_none_iff]
  rintro ⟨text', combine⟩ hmem
  rw [bne_iff_ne]
  rintro rfl
  exact h (List.mem_map.2 ⟨_, hmem, rfl⟩)

theorem Operator.text_mem {level : Nat} (op : Operator level) : op.text ∈ operatorTexts level := by
  by_contra h
  have hnone := lookup_operators_eq_none h
  rw [op.listed] at hnone
  exact absurd hnone (by simp)

/-- No operator is an opening parenthesis. -/
theorem Operator.text_ne {level : Nat} (op : Operator level) : op.text ≠ "(" := by
  intro h
  have hmem := op.text_mem
  rw [h] at hmem
  match level with
  | 0 => exact absurd hmem (by decide)
  | 1 => exact absurd hmem (by decide)
  | 2 => exact absurd hmem (by decide)
  | _ + 3 => exact absurd hmem (by simp [operatorTexts, operators])

/-- An operator of one level is no operator of a lower level. -/
theorem Operator.lookup_lower {level lower : Nat} (op : Operator level) (h : lower < level) :
    (operators lower).lookup op.text = none := by
  apply lookup_operators_eq_none
  have hmem := op.text_mem
  match level with
  | 0 => omega
  | 1 =>
      obtain rfl : lower = 0 := by omega
      exact (by decide : ∀ text ∈ operatorTexts 1, text ∉ operatorTexts 0) _ hmem
  | 2 =>
      obtain rfl | rfl : lower = 0 ∨ lower = 1 := by omega
      · exact (by decide : ∀ text ∈ operatorTexts 2, text ∉ operatorTexts 0) _ hmem
      · exact (by decide : ∀ text ∈ operatorTexts 2, text ∉ operatorTexts 1) _ hmem
  | _ + 3 => exact absurd hmem (by simp [operatorTexts, operators])

end Grammar
end MicroGo
