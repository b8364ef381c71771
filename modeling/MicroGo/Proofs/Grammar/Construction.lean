import MicroGo.Program.Parser.Function

/-!
# How parsers are built

Every parser of the language is built from a few operations, which look at the token ahead, take it,
complain, or use the scopes, by doing one thing after another, by opening a scope, and by repeating
something within a budget.  `Built` says so of a parser, and there is one lemma for each parser,
whose proof follows the parser.  So a law that holds of the operations and is kept by the ways to
build on them holds of all parsers, by one induction.

## Two parsers at once

Some laws compare what a parser does with the same tokens at different places.  A token that has
been looked at is kept, to complain about its place later on; what follows then depends on the token
as a whole, and so there are two parsers to compare, one for each place.  `Built g p q` says that
`p` and `q` are built in the same way and differ in the tokens that they keep: those of `q` are
moved by `g`.
-/

namespace MicroGo

/-- The complaint is that no scope is open to declare a name in. -/
def Complaint.LacksScope : Complaint → Prop
  | noOpenScope _ => True
  | _ => False

/-- The token at another place. -/
def Token.relocate (g : Position → Position) (t : Token) : Token :=
  { t with pos := g t.pos }

namespace Parser

variable {α β σ : Type} {g : Position → Position}

/-- **Two parsers are built alike from the operations**, the second one with the tokens that it
keeps moved by `g`. -/
inductive Built (g : Position → Position) : {α : Type} → Parser α → Parser α → Prop where
  | pure {α : Type} (a : α) : Built g (Pure.pure a : Parser α) (Pure.pure a)
  | bind {α β : Type} {p q : Parser α} {k l : α → Parser β} : Built g p q →
      (∀ a, Built g (k a) (l a)) → Built g (p >>= k) (q >>= l)
  /-- What follows a look at the token ahead keeps the token. -/
  | current {β : Type} {k l : Token → Parser β} : (∀ t, Built g (k t) (l (t.relocate g))) →
      Built g (Parser.current >>= k) (Parser.current >>= l)
  | following {β : Type} {k l : Token → Parser β} : (∀ t, Built g (k t) (l (t.relocate g))) →
      Built g (Parser.following >>= k) (Parser.following >>= l)
  | inScope {α : Type} {p q : Parser α} : Built g p q →
      Built g (Parser.inScope p) (Parser.inScope q)
  /-- The budget is the number of tokens ahead. -/
  | budgeted {α : Type} {p q : Nat → Parser α} : (∀ n, Built g (p n) (q n)) →
      Built g (fun s => p (s.ahead.length + 1) s) (fun s => q (s.ahead.length + 1) s)
  | isAt (text : String) : Built g (Parser.isAt text) (Parser.isAt text)
  | atEnd : Built g Parser.atEnd Parser.atEnd
  /-- That no scope is open is for `declare` to say. -/
  | reject {α : Type} (complaint : Complaint) (token : Token) (h : ¬ complaint.LacksScope) :
      Built g (Parser.reject complaint token : Parser α)
        (Parser.reject complaint (token.relocate g))
  | failExpecting {α : Type} (wanted : Wanted) :
      Built g (Parser.failExpecting wanted : Parser α) (Parser.failExpecting wanted)
  | exhausted {α : Type} : Built g (Parser.exhausted : Parser α) Parser.exhausted
  | take? {α : Type} (f : Lexeme → Option α) : Built g (Parser.take? f) (Parser.take? f)
  | resolve (name : String) : Built g (Parser.resolve name) (Parser.resolve name)
  | declare (name : Token) (type : Ty) :
      Built g (Parser.declare name type) (Parser.declare (name.relocate g) type)
  | startFunction : Built g Parser.startFunction Parser.startFunction
  | finishFunction (name : String) (count : Nat) (body : List Stmt) :
      Built g (Parser.finishFunction name count body) (Parser.finishFunction name count body)

theorem Built.ite {c : Prop} [Decidable c] {p p' q q' : Parser α} (h : Built g p q)
    (h' : Built g p' q') : Built g (if c then p else p') (if c then q else q') := by
  split
  · exact h
  · exact h'

theorem built_iterate {step : σ → Parser (σ ⊕ β)} (h : ∀ x, Built g (step x) (step x))
    (budget : Nat) (x : σ) : Built g (iterate step budget x) (iterate step budget x) := by
  induction budget generalizing x with
  | zero => exact .exhausted
  | succ budget ih =>
    refine (h x).bind fun r => ?_
    cases r with
    | inl y => exact ih y
    | inr b => exact .pure b

theorem built_loop {step : σ → Parser (σ ⊕ β)} (h : ∀ x, Built g (step x) (step x)) (x : σ) :
    Built g (loop step x) (loop step x) :=
  .budgeted fun budget => built_iterate h budget x

/-! ## Words, names and types -/

theorem built_accept (text : String) : Built g (accept text) (accept text) :=
  (Built.take? _).bind fun _ => .pure _

theorem built_expect (text : String) : Built g (expect text) (expect text) :=
  (built_accept text).bind fun _ => .ite (.pure ()) (.failExpecting _)

theorem built_typeName : Built g typeName typeName := by
  refine (Built.take? _).bind fun taken => ?_
  cases taken with
  | none => exact .failExpecting _
  | some type => exact .pure type

/-- What follows a name keeps its token. -/
theorem Built.identifier {k l : Token → Parser β}
    (h : ∀ t, Built g (k t) (l (t.relocate g))) :
    Built g (Parser.identifier >>= k) (Parser.identifier >>= l) := by
  unfold Parser.identifier
  rw [bind_assoc, bind_assoc]
  refine .current fun t => ?_
  rw [bind_assoc, bind_assoc]
  refine (Built.take? _).bind fun taken => ?_
  cases taken with
  | none =>
    have hfail (k : Token → Parser β) :
        (Parser.failExpecting .identifier >>= k) = Parser.failExpecting .identifier := rfl
    rw [hfail, hfail]
    exact .failExpecting .identifier
  | some _ => exact h t

/-! ## Expressions -/

section Expressions

variable {operand nested : Parser Expr}

theorem built_chain (operators : Operators) (h : Built g operand operand) :
    Built g (chain operators operand) (chain operators operand) := by
  refine h.bind fun first => built_loop (fun left => ?_) first
  refine (Built.take? _).bind fun taken => ?_
  cases taken with
  | none => exact .pure _
  | some combine => exact h.bind fun _ => .pure _

theorem built_signStep (minuses : Nat) : Built g (signStep minuses) (signStep minuses) :=
  (built_accept "+").bind fun _ => .ite (.pure _) <|
    (built_accept "-").bind fun _ => .ite (.pure _) (.pure _)

theorem built_unary (h : Built g operand operand) :
    Built g (unary operand) (unary operand) :=
  (built_loop built_signStep 0).bind fun _ => h.bind fun _ => .pure _

theorem built_separator : Built g separator separator :=
  (Built.isAt ")").bind fun _ => .ite (.pure ()) (built_expect ",")

theorem built_argumentStep (h : Built g nested nested) (args : List Expr) :
    Built g (argumentStep nested args) (argumentStep nested args) :=
  (built_accept ")").bind fun _ => .ite (.pure _) <|
    h.bind fun _ => built_separator.bind fun _ => .pure _

theorem built_call (h : Built g nested nested) :
    Built g (call nested) (call nested) :=
  .identifier fun _ => (built_expect "(").bind fun _ =>
    (built_loop (built_argumentStep h) []).bind fun _ =>
      .ite (.pure _) (.reject _ _ not_false)

theorem built_numeral : Built g numeral numeral := by
  refine .current fun t => (Built.take? _).bind fun taken => ?_
  cases taken with
  | none => exact .reject _ t not_false
  | some value => exact .pure _

theorem built_variableUse : Built g variableUse variableUse := by
  refine .identifier fun name => (Built.resolve _).bind fun found => ?_
  cases found with
  | none => exact .reject _ name not_false
  | some id => exact .pure _

theorem built_primary (h : Built g nested nested) :
    Built g (primary nested) (primary nested) := by
  refine (built_accept "(").bind fun _ => .ite ?_ ?_
  · exact h.bind fun _ => (built_expect ")").bind fun _ => .pure _
  · refine .current fun t => ?_
    have hkind : (t.relocate g).kind = t.kind := rfl
    rw [hkind]
    cases t.kind with
    | num => exact built_numeral
    | ident => exact .following fun _ => .ite (built_call h) built_variableUse
    | reserved => exact .failExpecting _
    | eof => exact .failExpecting _

theorem built_comparison (h : Built g nested nested) :
    Built g (comparison nested) (comparison nested) :=
  built_chain _ <| built_chain _ <| built_chain _ <|
    built_unary <| built_primary h

theorem built_exprAt (n : Nat) : Built g (exprAt n) (exprAt n) := by
  induction n with
  | zero => exact .exhausted
  | succ n ih => exact built_comparison ih

theorem built_expr : Built g expr expr :=
  .budgeted built_exprAt

end Expressions

/-! ## Statements -/

section Statements

variable {stmt nested : Parser Stmt}

theorem built_simple : Built g simple simple := by
  refine .current fun t => built_expr.bind fun left =>
    (built_accept "=").bind fun _ => .ite ?_ (.pure _)
  cases left with
  | var id => exact built_expr.bind fun _ => .pure _
  | num value => exact .reject _ t not_false
  | binary op l r => exact .reject _ t not_false
  | call callee args => exact .reject _ t not_false

theorem built_declaration : Built g declaration declaration := by
  have hend (name : Token) (type : Ty) (value : Expr) :
      Built g (declare name type >>= fun id => pure (Stmt.assign id value))
        (declare (name.relocate g) type >>= fun id => pure (Stmt.assign id value)) :=
    (Built.declare name type).bind fun _ => .pure _
  refine .identifier fun name => (built_accept "=").bind fun _ => .ite ?_ ?_
  · exact built_expr.bind fun value => hend name _ value
  · refine built_typeName.bind fun type => (built_accept "=").bind fun _ => .ite ?_ ?_
    · exact built_expr.bind fun value => hend name type value
    · exact hend name type _

theorem built_condition (start : Token) (s : Stmt) :
    Built g (condition start s) (condition (start.relocate g) s) := by
  cases s with
  | expr e => exact .pure e
  | _ => exact .reject _ start not_false

theorem built_bodyStep (h : Built g stmt stmt) (body : List Stmt) :
    Built g (bodyStep stmt body) (bodyStep stmt body) :=
  (built_accept ";").bind fun _ => .ite (.pure _) <|
    (built_accept "\x7d").bind fun _ => .ite (.pure _) <|
      h.bind fun _ => (Built.isAt "\x7d").bind fun _ =>
        .ite (.pure _) ((built_expect ";").bind fun _ => .pure _)

theorem built_body (h : Built g stmt stmt) : Built g (body stmt) (body stmt) :=
  (built_expect "\x7b").bind fun _ => built_loop (built_bodyStep h) []

theorem built_block (h : Built g stmt stmt) : Built g (block stmt) (block stmt) :=
  (built_body h).inScope

theorem built_branchHead : Built g branchHead branchHead :=
  .current fun start => built_simple.bind fun first =>
    (built_accept ";").bind fun _ =>
      .ite (built_expr.bind fun _ => .pure _)
        ((built_condition start first).bind fun _ => .pure _)

theorem built_otherwise (h : Built g stmt stmt) :
    Built g (otherwise stmt) (otherwise stmt) :=
  (built_accept "else").bind fun _ => .ite
    ((Built.isAt "if").bind fun _ => .ite (h.bind fun _ => .pure _)
      ((built_block h).bind fun _ => .pure _))
    (.pure _)

theorem built_branch (h : Built g stmt stmt) : Built g (branch stmt) (branch stmt) :=
  .inScope <| built_branchHead.bind fun _ => (built_block h).bind fun _ =>
    (built_otherwise h).bind fun _ => .pure _

theorem built_loopClauses (init : Option Stmt) :
    Built g (loopClauses init) (loopClauses init) := by
  have hpost (cond : Option Expr) :
      Built g
        (isAt "\x7b" >>= fun b =>
          if b then pure (init, cond, none)
          else simple >>= fun post => pure (init, cond, some post))
        (isAt "\x7b" >>= fun b =>
          if b then pure (init, cond, none)
          else simple >>= fun post => pure (init, cond, some post)) :=
    (Built.isAt "\x7b").bind fun _ => .ite (.pure _)
      (built_simple.bind fun _ => .pure _)
  refine (built_expect ";").bind fun _ => (Built.isAt ";").bind fun _ => .ite ?_ ?_
  · exact (built_expect ";").bind fun _ => hpost none
  · exact built_expr.bind fun cond => (built_expect ";").bind fun _ => hpost (some cond)

theorem built_loopHead : Built g loopHead loopHead :=
  (Built.isAt "\x7b").bind fun _ => .ite (.pure _) <|
    (Built.isAt ";").bind fun _ => .ite (built_loopClauses none) <|
      .current fun start => built_simple.bind fun first =>
        (Built.isAt ";").bind fun _ => .ite (built_loopClauses (some first))
          ((built_condition start first).bind fun _ => .pure _)

theorem built_repetition (h : Built g stmt stmt) :
    Built g (repetition stmt) (repetition stmt) :=
  .inScope <| built_loopHead.bind fun _ => (built_block h).bind fun _ => .pure _

theorem built_statement (h : Built g nested nested) :
    Built g (statement nested) (statement nested) :=
  (built_accept "return").bind fun _ =>
    .ite (built_expr.bind fun _ => .pure _) <|
  (built_accept "var").bind fun _ => .ite built_declaration <|
  (built_accept "if").bind fun _ => .ite (built_branch h) <|
  (built_accept "for").bind fun _ => .ite (built_repetition h) <|
  (Built.isAt "\x7b").bind fun _ =>
    .ite ((built_block h).bind fun _ => .pure _) built_simple

theorem built_stmtAt (n : Nat) : Built g (stmtAt n) (stmtAt n) := by
  induction n with
  | zero => exact .exhausted
  | succ n ih => exact built_statement ih

theorem built_stmt : Built g Parser.stmt Parser.stmt :=
  .budgeted built_stmtAt

end Statements

/-! ## Functions -/

theorem built_parameterStep (count : Nat) :
    Built g (parameterStep count) (parameterStep count) :=
  (built_accept ")").bind fun _ => .ite (.pure _) <|
    .identifier fun name => built_typeName.bind fun type =>
      .ite ((Built.declare name type).bind fun _ => built_separator.bind fun _ => .pure _)
        (.reject _ name not_false)

theorem built_signatureAndBody : Built g signatureAndBody signatureAndBody :=
  .inScope <| (built_loop built_parameterStep 0).bind fun _ =>
    (Built.isAt "\x7b").bind fun _ =>
      .ite ((built_body built_stmt).bind fun _ => .pure _)
        (built_typeName.bind fun _ => (built_body built_stmt).bind fun _ => .pure _)

theorem built_function : Built g function function :=
  (built_expect "func").bind fun _ => .identifier fun name =>
    (built_expect "(").bind fun _ => Built.startFunction.bind fun _ =>
      built_signatureAndBody.bind fun r => .finishFunction name.text r.1 r.2

theorem built_functionStep (functions : List Function) :
    Built g (functionStep functions) (functionStep functions) :=
  Built.atEnd.bind fun _ => .ite (.pure _) <|
    .following fun name => built_function.bind fun _ =>
      .ite (.reject _ name not_false) ((built_expect ";").bind fun _ => .pure _)

/-- **The parser of programs is built from the operations.** -/
theorem built_program : Built g program program :=
  Built.atEnd.bind fun _ => .ite (.current fun t => .reject _ t not_false) <|
    (built_loop built_functionStep []).bind fun _ => .pure _

end Parser
end MicroGo
