import Mathlib.Tactic.Common
import MicroGo.Token.Basic

/-!
# The rules of the grammar

The grammar of the language in the usual notation, as data.  The right-hand side of a rule is built
from lexemes and nonterminals by sequence, choice, option and repetition; `rule` is the table of
the rules, in the order and the words in which the language is described.

Blocks are the one place where the table says more than `"{" { statement ";" } "}"`: stray
semicolons may stand anywhere between the statements, and the semicolon in front of the closing
brace may be left out.

## Derivations

A derivation of a right-hand side records every choice that is made on the way to a list of lexemes,
its yield.  The lists that a nonterminal derives are the yields of its derivations.

## Reading a derivation

A function on derivations is given by its action at each rule, as in a parser generator: the action
of a nonterminal takes what the parts of its right-hand side have given, which is a pair for a
sequence, a sum for a choice, an option for an option and a list for a repetition (`Meaning`).
Two such functions are compared rule by rule (`eval_map`), and so is a function that keeps the
lexemes with the yield (`lexemes_eval`).
-/

namespace MicroGo
namespace Grammar

/-- The nonterminals. -/
inductive Nonterminal where
  | program
  | functionDecl
  | param
  | block
  | statement
  | varDecl
  | ifStmt
  | forStmt
  | condition
  | simpleStmt
  | expr
  | add
  | mul
  | unary
  | primary
  | funcCall
deriving DecidableEq

/-- Right-hand sides of rules. -/
inductive Rhs where
  /-- The lexeme itself. -/
  | lexeme (l : Lexeme)
  /-- Any lexeme of the kind. -/
  | kind (k : Lexeme.Kind)
  | ref (n : Nonterminal)
  | seq (a b : Rhs)
  | alt (a b : Rhs)
  | opt (a : Rhs)
  | many (a : Rhs)
deriving DecidableEq

namespace Rhs

instance : Append Rhs := ⟨seq⟩

instance : OrElse Rhs := ⟨fun a b => alt a (b ())⟩

/-- A word or sign of the language itself. -/
abbrev word (text : String) : Rhs :=
  lexeme (.reserved text)

/-- A name. -/
abbrev ident : Rhs :=
  kind .ident

/-- A numeral. -/
abbrev num : Rhs :=
  kind .num

/-- The one type, whose name is a name like any other. -/
abbrev int : Rhs :=
  lexeme ⟨.ident, "int"⟩

/-- The end of the input. -/
abbrev eof : Rhs :=
  lexeme ⟨.eof, ""⟩

end Rhs

open Rhs in
/-- **The rules.** -/
def rule : Nonterminal → Rhs
  | .program => many (ref .functionDecl ++ word ";") ++ eof
  | .functionDecl =>
      word "func" ++ ident ++ word "(" ++
        opt (ref .param ++ many (word "," ++ ref .param) ++ opt (word ",")) ++ word ")" ++
        opt int ++ ref .block
  | .param => ident ++ int
  | .block =>
      word "\x7b" ++ many (word ";" <|> ref .statement ++ word ";") ++ opt (ref .statement) ++
        word "\x7d"
  | .statement =>
      word "return" ++ ref .expr <|> ref .varDecl <|> ref .ifStmt <|> ref .forStmt <|>
        ref .block <|> ref .simpleStmt
  | .varDecl =>
      word "var" ++ ident ++ (int ++ opt (word "=" ++ ref .expr) <|> word "=" ++ ref .expr)
  | .ifStmt =>
      word "if" ++ opt (ref .simpleStmt ++ word ";") ++ ref .expr ++ ref .block ++
        opt (word "else" ++ (ref .ifStmt <|> ref .block))
  | .forStmt =>
      word "for" ++
        opt (ref .condition <|>
          opt (ref .simpleStmt) ++ word ";" ++ opt (ref .expr) ++ word ";" ++
            opt (ref .simpleStmt)) ++
        ref .block
  | .condition => ref .expr
  | .simpleStmt => ref .expr ++ opt (word "=" ++ ref .expr)
  | .expr =>
      ref .add ++
        many ((word "==" <|> word "!=" <|> word "<" <|> word "<=" <|> word ">" <|> word ">=") ++
          ref .add)
  | .add => ref .mul ++ many ((word "+" <|> word "-") ++ ref .mul)
  | .mul => ref .unary ++ many ((word "*" <|> word "/") ++ ref .unary)
  | .unary => (word "+" <|> word "-") ++ ref .unary <|> ref .primary
  | .primary => num <|> ident <|> ref .funcCall <|> word "(" ++ ref .expr ++ word ")"
  | .funcCall =>
      ident ++ word "(" ++
        opt (ref .expr ++ many (word "," ++ ref .expr) ++ opt (word ",")) ++ word ")"

/-! ## Derivations -/

/-- The derivations of a right-hand side. -/
inductive Derivation : Rhs → Type where
  | lexeme (l : Lexeme) : Derivation (.lexeme l)
  | kind (k : Lexeme.Kind) (text : String) : Derivation (.kind k)
  | ref (n : Nonterminal) (d : Derivation (rule n)) : Derivation (.ref n)
  | seq {a b : Rhs} (d : Derivation a) (e : Derivation b) : Derivation (.seq a b)
  | inl {a b : Rhs} (d : Derivation a) : Derivation (.alt a b)
  | inr {a b : Rhs} (d : Derivation b) : Derivation (.alt a b)
  | none {a : Rhs} : Derivation (.opt a)
  | some {a : Rhs} (d : Derivation a) : Derivation (.opt a)
  | nil {a : Rhs} : Derivation (.many a)
  | cons {a : Rhs} (d : Derivation a) (ds : Derivation (.many a)) : Derivation (.many a)

/-- The lexemes that are derived. -/
def Derivation.yield : {r : Rhs} → Derivation r → List Lexeme
  | _, .lexeme l => [l]
  | _, .kind k text => [⟨k, text⟩]
  | _, .ref _ d => d.yield
  | _, .seq d e => d.yield ++ e.yield
  | _, .inl d => d.yield
  | _, .inr d => d.yield
  | _, .none => []
  | _, .some d => d.yield
  | _, .nil => []
  | _, .cons d ds => d.yield ++ ds.yield

/-- **The right-hand side derives the lexemes.** -/
def Derives (r : Rhs) (ls : List Lexeme) : Prop :=
  ∃ d : Derivation r, d.yield = ls

/-! ## Reading a derivation -/

variable {M M' : Nonterminal → Type}

/-- What the parts of a right-hand side give together, if each nonterminal gives an `M`. -/
def Meaning (M : Nonterminal → Type) : Rhs → Type
  | .lexeme _ => Unit
  | .kind _ => String
  | .ref n => M n
  | .seq a b => Meaning M a × Meaning M b
  | .alt a b => Meaning M a ⊕ Meaning M b
  | .opt a => Option (Meaning M a)
  | .many a => List (Meaning M a)

/-- What each rule makes of its parts. -/
abbrev Actions (M : Nonterminal → Type) :=
  (n : Nonterminal) → Meaning M (rule n) → M n

/-- What a derivation gives under the actions of the rules. -/
def Derivation.eval (act : Actions M) : {r : Rhs} → Derivation r → Meaning M r
  | _, .lexeme _ => ()
  | _, .kind _ text => text
  | _, .ref n d => act n (d.eval act)
  | _, .seq d e => (d.eval act, e.eval act)
  | _, .inl d => Sum.inl (d.eval act)
  | _, .inr d => Sum.inr (d.eval act)
  | _, .none => Option.none
  | _, .some d => Option.some (d.eval act)
  | _, .nil => List.nil
  | _, .cons d ds => List.cons (d.eval act) (ds.eval act)

/-- The parts of a right-hand side, with what the nonterminals give put differently. -/
def Meaning.map (g : (n : Nonterminal) → M n → M' n) : (r : Rhs) → Meaning M r → Meaning M' r
  | .lexeme _, x => x
  | .kind _, x => x
  | .ref n, x => g n x
  | .seq a b, x => (Meaning.map g a x.1, Meaning.map g b x.2)
  | .alt a b, x => Sum.map (Meaning.map g a) (Meaning.map g b) x
  | .opt a, x => Option.map (Meaning.map g a) x
  | .many a, x => List.map (Meaning.map g a) x

/-- The lexemes of a right-hand side, if `lex` gives those of its nonterminals. -/
def Meaning.lexemes (lex : (n : Nonterminal) → M n → List Lexeme) :
    (r : Rhs) → Meaning M r → List Lexeme
  | .lexeme l, _ => [l]
  | .kind k, x => [⟨k, x⟩]
  | .ref n, x => lex n x
  | .seq a b, x => Meaning.lexemes lex a x.1 ++ Meaning.lexemes lex b x.2
  | .alt a b, x => Sum.elim (Meaning.lexemes lex a) (Meaning.lexemes lex b) x
  | .opt a, x => Option.elim x [] (Meaning.lexemes lex a)
  | .many a, x => List.flatMap (Meaning.lexemes lex a) x

/-- Actions that correspond at each rule give corresponding readings of every derivation. -/
theorem Derivation.eval_map {act : Actions M} {act' : Actions M'}
    (g : (n : Nonterminal) → M n → M' n)
    (h : ∀ n x, g n (act n x) = act' n (Meaning.map g (rule n) x)) {r : Rhs} (d : Derivation r) :
    Meaning.map g r (d.eval act) = d.eval act' := by
  induction d with
  | lexeme l => rfl
  | kind k text => rfl
  | ref n d ih => exact (h n (d.eval act)).trans (congrArg (act' n) ih)
  | seq d e ihd ihe => exact congrArg₂ Prod.mk ihd ihe
  | inl d ih => exact congrArg Sum.inl ih
  | inr d ih => exact congrArg Sum.inr ih
  | none => rfl
  | some d ih => exact congrArg Option.some ih
  | nil => rfl
  | cons d ds ihd ihds => exact congrArg₂ List.cons ihd ihds

/-- Actions that keep the lexemes of each rule keep the yield of every derivation. -/
theorem Derivation.lexemes_eval {act : Actions M} (lex : (n : Nonterminal) → M n → List Lexeme)
    (h : ∀ n x, lex n (act n x) = Meaning.lexemes lex (rule n) x) {r : Rhs} (d : Derivation r) :
    Meaning.lexemes lex r (d.eval act) = d.yield := by
  induction d with
  | lexeme l => rfl
  | kind k text => rfl
  | ref n d ih => exact (h n (d.eval act)).trans ih
  | seq d e ihd ihe => exact congrArg₂ (· ++ ·) ihd ihe
  | inl d ih => exact ih
  | inr d ih => exact ih
  | none => rfl
  | some d ih => exact ih
  | nil => rfl
  | cons d ds ihd ihds => exact congrArg₂ (· ++ ·) ihd ihds

end Grammar
end MicroGo
