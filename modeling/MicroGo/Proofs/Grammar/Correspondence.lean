import MicroGo.Proofs.Grammar.Shape
import MicroGo.Proofs.Scope.Denotation

/-!
# Derivations and trees

The trees of the grammar leave out what a derivation spells: which rule is used where, and the words
and signs that a rule brings along.  Nothing is lost by that: each derivation has a tree with the
same lexemes and the same shape (`TreeOf.actions`).

Lists with commas are written down once for arguments and parameters (`separated`), and the three
levels of operators once for all of them (`TreeOf.chain`).
-/

namespace MicroGo
namespace Grammar

/-! ## The tree of a derivation -/

/-- What each nonterminal has for a tree. -/
def TreeOf : Nonterminal → Type
  | .program => List Function
  | .functionDecl => Function
  | .param => String
  | .block => Body
  | .statement => Statement
  | .varDecl => Local
  | .ifStmt => Conditional
  | .forStmt => LoopHead × Body
  | .condition => Expression
  | .simpleStmt => Simple
  | .expr => Operand 3
  | .add => Operand 2
  | .mul => Operand 1
  | .unary => Operand 0
  | .primary => Primary
  | .funcCall => String × Args

section Separated

variable {α β γ : Type}

/-- The members of a list with commas between them from one member on. -/
def separatedFrom (close : β) (last : α → β) (next : α → β → β) (trailing : Option Unit)
    (first : α) : List (Unit × α) → β
  | [] => trailing.elim (last first) fun _ => next first close
  | link :: rest => next first (separatedFrom close last next trailing link.2 rest)

/-- The members of a list with commas between them and perhaps one behind, up to a closing sign. -/
def separated (close : β) (last : α → β) (next : α → β → β) :
    Option ((α × List (Unit × α)) × Option Unit) → β
  | none => close
  | some ((first, rest), trailing) => separatedFrom close last next trailing first rest

variable {close : β} {last : α → β} {next : α → β → β}

theorem lexemes_separated (lex : β → List Lexeme) (part : α → List Lexeme) {sign : Lexeme}
    (hclose : lex close = [sign]) (hlast : ∀ a, lex (last a) = part a ++ [sign])
    (hnext : ∀ a b, lex (next a b) = part a ++ .reserved "," :: lex b)
    (x : Option ((α × List (Unit × α)) × Option Unit)) :
    lex (separated close last next x) =
      x.elim [] (fun y => part y.1.1 ++
        y.1.2.flatMap (fun link => [.reserved ","] ++ part link.2) ++
        y.2.elim [] fun _ => [.reserved ","]) ++ [sign] := by
  rcases x with _ | ⟨⟨first, rest⟩, trailing⟩
  · exact hclose
  show lex (separatedFrom close last next trailing first rest) = _
  induction rest generalizing first with
  | nil =>
      cases trailing with
      | none => simp [separatedFrom, hlast]
      | some u => simp [separatedFrom, hnext, hclose]
  | cons link rest ih => simpa [separatedFrom, hnext] using ih link.2

theorem members_separated (all : β → List γ) (g : α → γ) (hclose : all close = [])
    (hlast : ∀ a, all (last a) = [g a]) (hnext : ∀ a b, all (next a b) = g a :: all b)
    (x : Option ((α × List (Unit × α)) × Option Unit)) :
    all (separated close last next x) =
      members (x.map fun y =>
        ((g y.1.1, y.1.2.map fun link => (link.1, g link.2)), y.2.map id)) := by
  rcases x with _ | ⟨⟨first, rest⟩, trailing⟩
  · exact hclose
  show all (separatedFrom close last next trailing first rest) =
    g first :: (rest.map fun link => (link.1, g link.2)).map Prod.snd
  induction rest generalizing first with
  | nil =>
      cases trailing with
      | none => exact hlast first
      | some u => rw [separatedFrom, Option.elim_some, hnext, hclose]; rfl
  | cons link rest ih => rw [separatedFrom, hnext, ih link.2]; rfl

end Separated

namespace TreeOf

/-- The operator of comparison that is chosen. -/
def comparison : Unit ⊕ Unit ⊕ Unit ⊕ Unit ⊕ Unit ⊕ Unit → Operator 2
  | .inl _ => ⟨"==", .binary .eq, rfl⟩
  | .inr (.inl _) => ⟨"!=", .binary .ne, rfl⟩
  | .inr (.inr (.inl _)) => ⟨"<", .binary .lt, rfl⟩
  | .inr (.inr (.inr (.inl _))) => ⟨"<=", .binary .le, rfl⟩
  | .inr (.inr (.inr (.inr (.inl _)))) => ⟨">", fun l r => .binary .lt r l, rfl⟩
  | .inr (.inr (.inr (.inr (.inr _)))) => ⟨">=", fun l r => .binary .le r l, rfl⟩

/-- The operator that adds. -/
def sum : Unit ⊕ Unit → Operator 1
  | .inl _ => ⟨"+", .binary .add, rfl⟩
  | .inr _ => ⟨"-", .binary .sub, rfl⟩

/-- The operator that multiplies. -/
def product : Unit ⊕ Unit → Operator 0
  | .inl _ => ⟨"*", .binary .mul, rfl⟩
  | .inr _ => ⟨"/", .binary .div, rfl⟩

/-- The rest of a chain. -/
def links {ω : Type} {level : Nat} (operator : ω → Operator level) :
    List (ω × Operand level) → Links level
  | [] => .nil
  | link :: rest => .cons (operator link.1) link.2 (links operator rest)

/-- A chain of operands of one level. -/
def chain {ω : Type} {level : Nat} (operator : ω → Operator level)
    (x : Operand level × List (ω × Operand level)) : Operand (level + 1) :=
  .chain x.1 (links operator x.2)

/-- A sign in front of an operand. -/
def signed (sign : Sign) : Operand 0 → Operand 0
  | .unary signs operand => .unary (sign :: signs) operand

def unary : (Unit ⊕ Unit) × Operand 0 ⊕ Primary → Operand 0
  | .inl (.inl _, t) => signed .plus t
  | .inl (.inr _, t) => signed .minus t
  | .inr t => .unary [] t

def primary : String ⊕ String ⊕ String × Args ⊕ (Unit × Operand 3) × Unit → Primary
  | .inl text => .num text
  | .inr (.inl text) => .name text
  | .inr (.inr (.inl t)) => .call t.1 t.2
  | .inr (.inr (.inr ((_, t), _))) => .paren t

def funcCall (x : ((String × Unit) ×
    Option ((Expression × List (Unit × Expression)) × Option Unit)) × Unit) : String × Args :=
  (x.1.1.1, separated .close .last .next x.1.2)

def varDecl : (Unit × String) × (Unit × Option (Unit × Expression) ⊕ Unit × Expression) → Local
  | ((_, name), .inl (_, value)) => .typed name (value.map Prod.snd)
  | ((_, name), .inr (_, value)) => .inferred name value

def statement : (Unit × Expression) ⊕ Local ⊕ Conditional ⊕ (LoopHead × Body) ⊕ Body ⊕ Simple →
    Statement
  | .inl (_, value) => .ret value
  | .inr (.inl t) => .declare t
  | .inr (.inr (.inl t)) => .branch t
  | .inr (.inr (.inr (.inl t))) => .loop t.1 t.2
  | .inr (.inr (.inr (.inr (.inl t)))) => .block t
  | .inr (.inr (.inr (.inr (.inr t)))) => .simple t

/-- The statements of a block from some place on, and the last one if no semicolon follows it. -/
def body (last : Option Statement) : List (Unit ⊕ Statement × Unit) → Body
  | [] => last.elim .close .last
  | .inl _ :: rest => .skip (body last rest)
  | .inr stmt :: rest => .next stmt.1 (body last rest)

def otherwise : Option (Unit × (Conditional ⊕ Body)) → Otherwise
  | none => .none
  | some (_, .inl t) => .elseIf t
  | some (_, .inr t) => .elseBlock t

def ifStmt (x : (((Unit × Option (Simple × Unit)) × Expression) × Body) ×
    Option (Unit × (Conditional ⊕ Body))) : Conditional :=
  .mk (x.1.1.1.2.map Prod.fst) x.1.1.2 x.1.2 (otherwise x.2)

/-- The head of a loop. -/
def loopHead : Option (Expression ⊕ (((Option Simple × Unit) × Option Expression) × Unit) ×
    Option Simple) → LoopHead
  | none => .forever
  | some (.inl cond) => .while cond
  | some (.inr ((((init, _), cond), _), post)) => .clauses init cond post

def functionDecl (x : (((((Unit × String) × Unit) ×
    Option ((String × List (Unit × String)) × Option Unit)) × Unit) × Option Unit) × Body) :
    Function :=
  ⟨x.1.1.1.1.1.2, separated .close .last .next x.1.1.1.2, x.1.2.isSome, x.2⟩

/-- The tree that each rule makes of its parts. -/
def actions : Actions TreeOf
  | .program => fun (x : List (Function × Unit) × Unit) => x.1.map Prod.fst
  | .functionDecl => functionDecl
  | .param => fun (x : String × Unit) => x.1
  | .block => fun (x : ((Unit × List (Unit ⊕ Statement × Unit)) × Option Statement) × Unit) =>
      body x.1.2 x.1.1.2
  | .statement => statement
  | .varDecl => varDecl
  | .ifStmt => ifStmt
  | .forStmt => fun (x : (Unit × Option _) × Body) => (loopHead x.1.2, x.2)
  | .condition => fun (t : Expression) => t
  | .simpleStmt => fun (x : Expression × Option (Unit × Expression)) => ⟨x.1, x.2.map Prod.snd⟩
  | .expr => chain comparison
  | .add => chain sum
  | .mul => chain product
  | .unary => unary
  | .primary => primary
  | .funcCall => funcCall

/-! ## Lexemes -/

/-- The lexemes of the tree of a nonterminal. -/
def lexemes : (n : Nonterminal) → TreeOf n → List Lexeme
  | .program, fs => functionLexemes fs ++ [⟨.eof, ""⟩]
  | .functionDecl, f => Function.lexemes f
  | .param, name => [⟨.ident, name⟩, typeLexeme]
  | .block, t => .reserved "\x7b" :: Body.lexemes t
  | .statement, t => Statement.lexemes t
  | .varDecl, t => .reserved "var" :: Local.lexemes t
  | .ifStmt, t => .reserved "if" :: Conditional.lexemes t
  | .forStmt, t => (Statement.loop t.1 t.2).lexemes
  | .condition, t => Operand.lexemes t
  | .simpleStmt, t => Simple.lexemes t
  | .expr, t => Operand.lexemes t
  | .add, t => Operand.lexemes t
  | .mul, t => Operand.lexemes t
  | .unary, t => Operand.lexemes t
  | .primary, t => Primary.lexemes t
  | .funcCall, t => (Primary.call t.1 t.2).lexemes

theorem lexemes_chain {ω : Type} {level : Nat} {operator : ω → Operator level}
    {sign : ω → List Lexeme} (h : ∀ y, sign y = [(operator y).lexeme])
    (x : Operand level × List (ω × Operand level)) :
    (chain operator x).lexemes =
      x.1.lexemes ++ x.2.flatMap fun link => sign link.1 ++ link.2.lexemes := by
  have hlinks : ∀ rest : List (ω × Operand level), (links operator rest).lexemes =
      rest.flatMap fun link => sign link.1 ++ link.2.lexemes := by
    intro rest
    induction rest with
    | nil => rw [links, Links.lexemes]; rfl
    | cons link rest ih =>
        rw [links, Links.lexemes, ih, List.flatMap_cons, h, List.singleton_append, List.cons_append]
  rw [chain, Operand.lexemes, hlinks]

theorem lexemes_signed (sign : Sign) (t : Operand 0) :
    (signed sign t).lexemes = sign.lexeme :: t.lexemes := by
  cases t with
  | unary signs operand => rw [signed, Operand.lexemes, Operand.lexemes]; rfl

theorem lexemes_body (last : Option Statement) (stmts : List (Unit ⊕ Statement × Unit)) :
    (body last stmts).lexemes =
      stmts.flatMap (Sum.elim (fun _ => [.reserved ";"])
          fun stmt => stmt.1.lexemes ++ [.reserved ";"]) ++
        last.elim [] Statement.lexemes ++ [.reserved "\x7d"] := by
  induction stmts with
  | nil =>
      cases last with
      | none => simp [body, Body.lexemes]
      | some stmt => simp [body, Body.lexemes]
  | cons part rest ih =>
      cases part with
      | inl u => simp [body, Body.lexemes, ih]
      | inr stmt => simp [body, Body.lexemes, ih]

theorem lexemes_program (fs : List (Function × Unit)) :
    functionLexemes (fs.map Prod.fst) = fs.flatMap fun f => f.1.lexemes ++ [.reserved ";"] := by
  rw [functionLexemes, List.flatMap_map]

theorem lexemes_params (params : Option ((String × List (Unit × String)) × Option Unit)) :
    (separated Params.close .last .next params).lexemes =
      params.elim [] (fun y => [⟨.ident, y.1.1⟩, typeLexeme] ++
        y.1.2.flatMap (fun link => [.reserved ","] ++ [⟨.ident, link.2⟩, typeLexeme]) ++
        y.2.elim [] fun _ => [.reserved ","]) ++ [.reserved ")"] :=
  lexemes_separated Params.lexemes (fun name => [⟨.ident, name⟩, typeLexeme]) rfl
    (fun _ => rfl) (fun _ _ => rfl) params

theorem lexemes_args (args : Option ((Expression × List (Unit × Expression)) × Option Unit)) :
    (separated Args.close .last .next args).lexemes =
      args.elim [] (fun y => y.1.1.lexemes ++
        y.1.2.flatMap (fun link => [.reserved ","] ++ link.2.lexemes) ++
        y.2.elim [] fun _ => [.reserved ","]) ++ [.reserved ")"] :=
  lexemes_separated Args.lexemes Operand.lexemes (by rw [Args.lexemes])
    (fun _ => by rw [Args.lexemes]) (fun _ _ => by rw [Args.lexemes]) args

theorem lexemes_functionDecl (name : String)
    (params : Option ((String × List (Unit × String)) × Option Unit)) (typed : Option Unit)
    (t : Body) :
    (Function.mk name (separated .close .last .next params) typed.isSome t).lexemes =
      [.reserved "func"] ++ [⟨.ident, name⟩] ++ [.reserved "("] ++
        params.elim [] (fun y => [⟨.ident, y.1.1⟩, typeLexeme] ++
          y.1.2.flatMap (fun link => [.reserved ","] ++ [⟨.ident, link.2⟩, typeLexeme]) ++
          y.2.elim [] fun _ => [.reserved ","]) ++ [.reserved ")"] ++
        typed.elim [] (fun _ => [typeLexeme]) ++ (.reserved "\x7b" :: t.lexemes) := by
  have htyped : (if typed.isSome then [typeLexeme] else []) =
      typed.elim [] fun _ => [typeLexeme] := by
    cases typed <;> rfl
  simp only [Function.lexemes, Function.signature, lexemes_params, htyped, List.append_assoc,
    List.cons_append, List.nil_append]

theorem lexemes_ifStmt (init : Option (Simple × Unit)) (cond : Expression) (t : Body)
    (other : Option (Unit × (Conditional ⊕ Body))) :
    .reserved "if" :: (Conditional.mk (init.map Prod.fst) cond t (otherwise other)).lexemes =
      [.reserved "if"] ++ init.elim [] (fun y => y.1.lexemes ++ [.reserved ";"]) ++ cond.lexemes ++
        (.reserved "\x7b" :: t.lexemes) ++
        other.elim [] (fun y => [.reserved "else"] ++
          y.2.elim (fun t' => .reserved "if" :: t'.lexemes)
            fun t' => .reserved "\x7b" :: t'.lexemes) := by
  have hinit : initLexemes (init.map Prod.fst) =
      init.elim [] fun y => y.1.lexemes ++ [.reserved ";"] := by
    cases init <;> rfl
  have hother : (otherwise other).lexemes = other.elim [] fun y => [.reserved "else"] ++
      y.2.elim (fun t' => .reserved "if" :: t'.lexemes)
        fun t' => .reserved "\x7b" :: t'.lexemes := by
    rcases other with _ | ⟨-, t' | t'⟩ <;> rw [otherwise, Otherwise.lexemes] <;> rfl
  simp only [Conditional.lexemes, hinit, hother, List.append_assoc, List.cons_append,
    List.nil_append]

theorem lexemes_forStmt (head : Option (Expression ⊕
    (((Option Simple × Unit) × Option Expression) × Unit) × Option Simple)) (t : Body) :
    (Statement.loop (loopHead head) t).lexemes =
      [.reserved "for"] ++
        head.elim [] (Sum.elim Operand.lexemes fun y =>
          y.1.1.1.1.elim [] Simple.lexemes ++ [.reserved ";"] ++ y.1.1.2.elim [] Operand.lexemes ++
            [.reserved ";"] ++ y.2.elim [] Simple.lexemes) ++
        (.reserved "\x7b" :: t.lexemes) := by
  rcases head with _ | cond | ⟨⟨⟨⟨init, -⟩, cond⟩, -⟩, post⟩ <;>
    simp [loopHead, Statement.lexemes, LoopHead.lexemes]

/-- **The tree of a rule has the lexemes of its parts.** -/
theorem lexemes_actions (n : Nonterminal) (x : Meaning TreeOf (rule n)) :
    lexemes n (actions n x) = Meaning.lexemes lexemes (rule n) x := by
  cases n with
  | program =>
      obtain ⟨fs, -⟩ := x
      exact congrArg (· ++ [⟨.eof, ""⟩]) (lexemes_program fs)
  | functionDecl =>
      obtain ⟨⟨⟨⟨⟨⟨-, name⟩, -⟩, params⟩, -⟩, typed⟩, t⟩ := x
      exact lexemes_functionDecl name params typed t
  | param => rfl
  | block =>
      obtain ⟨⟨⟨-, stmts⟩, last⟩, -⟩ := x
      exact congrArg (.reserved "\x7b" :: ·) (lexemes_body last stmts)
  | statement => rcases x with ⟨u, t⟩ | t | t | t | t | t <;> rfl
  | varDecl => rcases x with ⟨⟨u, name⟩, ⟨u', _ | t⟩ | ⟨u', t⟩⟩ <;> rfl
  | ifStmt =>
      obtain ⟨⟨⟨⟨-, init⟩, cond⟩, t⟩, other⟩ := x
      exact lexemes_ifStmt init cond t other
  | forStmt =>
      obtain ⟨⟨-, head⟩, t⟩ := x
      exact lexemes_forStmt head t
  | condition => rfl
  | simpleStmt => rcases x with ⟨t, _ | value⟩ <;> rfl
  | expr => exact lexemes_chain (by rintro (u | u | u | u | u | u) <;> rfl) x
  | add => exact lexemes_chain (by rintro (u | u) <;> rfl) x
  | mul => exact lexemes_chain (by rintro (u | u) <;> rfl) x
  | unary =>
      rcases x with ⟨u | u, t⟩ | t
      · exact lexemes_signed .plus t
      · exact lexemes_signed .minus t
      · rfl
  | primary => rcases x with text | text | t | ⟨⟨u, t⟩, u'⟩ <;> rfl
  | funcCall =>
      obtain ⟨⟨⟨callee, -⟩, args⟩, -⟩ := x
      exact congrArg (⟨.ident, callee⟩ :: .reserved "(" :: ·) (lexemes_args args)

end TreeOf

/-! ## Shapes -/

/-- The tree that an operator makes, by its text. -/
def operatorShape : String → ExprShape → ExprShape → ExprShape
  | "==" => .binary .eq
  | "!=" => .binary .ne
  | "<" => .binary .lt
  | "<=" => .binary .le
  | ">" => fun left right => .binary .lt right left
  | ">=" => fun left right => .binary .le right left
  | "+" => .binary .add
  | "-" => .binary .sub
  | "*" => .binary .mul
  | _ => .binary .div

mutual

/-- The shape of an operand. -/
def Operand.shape : {level : Nat} → Operand level → ExprShape
  | _, .unary signs operand => Nat.repeat ExprShape.negate (signs.count .minus) operand.shape
  | _, .chain first rest => rest.shape first.shape

/-- The shape of a chain when `left` is the shape of the part of it that comes before. -/
def Links.shape : {level : Nat} → Links level → (left : ExprShape) → ExprShape
  | _, .nil, left => left
  | _, .cons op operand rest, left => rest.shape (operatorShape op.text left operand.shape)

def Primary.shape : Primary → ExprShape
  | .num text => .num text
  | .name text => .name text
  | .call callee args => .call callee args.shapes
  | .paren inner => inner.shape

def Args.shapes : Args → List ExprShape
  | .close => []
  | .last arg => [arg.shape]
  | .next arg rest => arg.shape :: rest.shapes

end

def Simple.shape (t : Simple) : StmtShape :=
  t.right.elim (.expr t.left.shape) fun right => .assign t.left.shape right.shape

def Local.shape : Local → StmtShape
  | typed name value => .assign (.name name) (value.elim .zero Operand.shape)
  | inferred name value => .assign (.name name) value.shape

/-- The shape of a loop with the given head, around the shape of its body. -/
def LoopHead.shape : LoopHead → List StmtShape → StmtShape
  | forever => .loop none none none
  | .while cond => .loop none (some cond.shape) none
  | clauses init cond post =>
      .loop (init.map Simple.shape) (cond.map Operand.shape) (post.map Simple.shape)

mutual

/-- The shape of a statement. -/
def Statement.shape : Statement → StmtShape
  | .ret value => .ret value.shape
  | .declare decl => decl.shape
  | .branch cases => cases.shape
  | .loop head body => head.shape body.shapes
  | .block body => .block body.shapes
  | .simple stmt => stmt.shape

def Conditional.shape : Conditional → StmtShape
  | .mk init cond body other =>
      .branch (init.map Simple.shape) cond.shape body.shapes other.shape

def Otherwise.shape : Otherwise → Option StmtShape
  | .none => none
  | .elseIf cases => some cases.shape
  | .elseBlock body => some (.block body.shapes)

def Body.shapes : Body → List StmtShape
  | .close => []
  | .skip rest => rest.shapes
  | .last stmt => [stmt.shape]
  | .next stmt rest => stmt.shape :: rest.shapes

end

def Function.shape (f : Function) : FunctionShape :=
  ⟨f.name, f.params.names, f.body.shapes⟩

namespace TreeOf

/-- The shape of the tree of a nonterminal. -/
def shape : (n : Nonterminal) → TreeOf n → Shape n
  | .program, fs => List.map Function.shape fs
  | .functionDecl, f => Function.shape f
  | .param, name => name
  | .block, t => Body.shapes t
  | .statement, t => Statement.shape t
  | .varDecl, t => Local.shape t
  | .ifStmt, t => Conditional.shape t
  | .forStmt, t => LoopHead.shape t.1 t.2.shapes
  | .condition, t => Operand.shape t
  | .simpleStmt, t => Simple.shape t
  | .expr, t => Operand.shape t
  | .add, t => Operand.shape t
  | .mul, t => Operand.shape t
  | .unary, t => Operand.shape t
  | .primary, t => Primary.shape t
  | .funcCall, t => (Primary.call t.1 t.2).shape

theorem shape_chain {ω : Type} {level : Nat} {operator : ω → Operator level} {g : ω → ω}
    {tree : ω → ExprShape → ExprShape → ExprShape}
    (h : ∀ y, operatorShape (operator y).text = tree (g y))
    (x : Operand level × List (ω × Operand level)) :
    (chain operator x).shape =
      Shape.chain tree (x.1.shape, x.2.map fun link => (g link.1, link.2.shape)) := by
  obtain ⟨first, rest⟩ := x
  rw [chain, Operand.shape]
  show (links operator rest).shape first.shape = _
  generalize first.shape = left
  induction rest generalizing left with
  | nil => rw [links, Links.shape]; rfl
  | cons link rest ih => rw [links, Links.shape, ih, h]; rfl

theorem shape_signed_plus (t : Operand 0) : (signed .plus t).shape = t.shape := by
  cases t with
  | unary signs operand =>
      rw [signed, Operand.shape, Operand.shape, List.count_cons_of_ne (by decide)]

theorem shape_signed_minus (t : Operand 0) : (signed .minus t).shape = t.shape.negate := by
  cases t with
  | unary signs operand =>
      rw [signed, Operand.shape, Operand.shape, List.count_cons_self, Nat.repeat]

theorem shapes_body (last : Option Statement) (stmts : List (Unit ⊕ Statement × Unit)) :
    (body last stmts).shapes =
      (stmts.map (Sum.map id fun stmt => (stmt.1.shape, stmt.2))).filterMap
        (Sum.elim (fun _ => none) fun stmt => some stmt.1) ++
          (last.map Statement.shape).toList := by
  induction stmts with
  | nil => cases last <;> rw [body] <;> rfl
  | cons part rest ih =>
      cases part with
      | inl u => rw [body, Body.shapes, ih]; rfl
      | inr stmt => rw [body, Body.shapes, ih]; rfl

theorem names_params (params : Option ((String × List (Unit × String)) × Option Unit)) :
    (separated Params.close .last .next params).names =
      members (params.map fun y => ((y.1.1, y.1.2.map fun link => (link.1, link.2)), y.2.map id)) :=
  members_separated Params.names id rfl (fun _ => rfl) (fun _ _ => rfl) params

theorem shapes_args (args : Option ((Expression × List (Unit × Expression)) × Option Unit)) :
    (separated Args.close .last .next args).shapes =
      members (args.map fun y =>
        ((y.1.1.shape, y.1.2.map fun link => (link.1, link.2.shape)), y.2.map id)) :=
  members_separated Args.shapes Operand.shape (by rw [Args.shapes])
    (fun _ => by rw [Args.shapes]) (fun _ _ => by rw [Args.shapes]) args

theorem shapes_program (fs : List (Function × Unit)) :
    (fs.map Prod.fst).map Function.shape =
      (fs.map fun f => (f.1.shape, f.2)).map Prod.fst := by
  rw [List.map_map, List.map_map]
  rfl

/-- **The tree of a rule has the shape that the rule gives to its parts.** -/
theorem shape_actions (n : Nonterminal) (x : Meaning TreeOf (rule n)) :
    shape n (actions n x) = Shape.actions n (Meaning.map shape (rule n) x) := by
  cases n with
  | program =>
      obtain ⟨fs, -⟩ := x
      exact shapes_program fs
  | functionDecl =>
      obtain ⟨⟨⟨⟨⟨⟨-, name⟩, -⟩, params⟩, -⟩, typed⟩, t⟩ := x
      exact congrArg (FunctionShape.mk name · t.shapes) (names_params params)
  | param => rfl
  | block =>
      obtain ⟨⟨⟨-, stmts⟩, last⟩, -⟩ := x
      exact shapes_body last stmts
  | statement => rcases x with ⟨u, t⟩ | t | t | t | t | t <;> rfl
  | varDecl => rcases x with ⟨⟨u, name⟩, ⟨u', _ | t⟩ | ⟨u', t⟩⟩ <;> rfl
  | ifStmt =>
      rcases x with ⟨⟨⟨⟨-, _ | init⟩, cond⟩, t⟩, _ | ⟨u, other | other⟩⟩ <;> rfl
  | forStmt =>
      rcases x with ⟨⟨-, _ | cond | ⟨⟨⟨⟨init, -⟩, cond⟩, -⟩, post⟩⟩, t⟩ <;> rfl
  | condition => rfl
  | simpleStmt => rcases x with ⟨t, _ | value⟩ <;> rfl
  | expr => exact shape_chain (by rintro (u | u | u | u | u | u) <;> rfl) x
  | add => exact shape_chain (by rintro (u | u) <;> rfl) x
  | mul => exact shape_chain (by rintro (u | u) <;> rfl) x
  | unary =>
      rcases x with ⟨u | u, t⟩ | t
      · exact shape_signed_plus t
      · exact shape_signed_minus t
      · rfl
  | primary => rcases x with text | text | t | ⟨⟨u, t⟩, u'⟩ <;> rfl
  | funcCall =>
      obtain ⟨⟨⟨callee, -⟩, args⟩, -⟩ := x
      exact congrArg (ExprShape.call callee) (shapes_args args)

end TreeOf

/-- The functions of a derivation. -/
def Derivation.functions (d : Derivation (.ref .program)) : List Function :=
  d.eval TreeOf.actions

theorem Derivation.lexemes_functions (d : Derivation (.ref .program)) :
    functionLexemes d.functions ++ [⟨.eof, ""⟩] = d.yield :=
  d.lexemes_eval TreeOf.lexemes TreeOf.lexemes_actions

theorem Derivation.shape_functions (d : Derivation (.ref .program)) :
    d.functions.map Function.shape = d.shape :=
  d.eval_map TreeOf.shape TreeOf.shape_actions

end Grammar
end MicroGo
