import MicroGo.Proofs.Grammar.Derivability
import MicroGo.Proofs.Grammar.Static
import MicroGo.Proofs.Token.Scanning

/-!
# The parser accepts exactly the grammar

The tokens of a text have a program only if they can be derived by the rules of the grammar, and the
program then has the shape of every derivation that they have.  Conversely, tokens that can be
derived have a program, unless they break one of the static rules; the grammar itself has nothing to
complain about.

Both directions go through the trees of the grammar.  The parser is known to agree with the
elaboration of trees, and trees are known to be derivations without their words.  What is left is
that the program which a tree denotes fits the shape of the tree.  There the marks in front of a
name matter, since they say which variable it stands for: a variable that was declared under this
name, and so one that has this name in the function (`Binds.nameAt_eq`).
-/

namespace MicroGo
namespace Grammar

/-! ## What a tree denotes fits its shape -/

/-- The name of a variable, if the marks declare it. -/
def nameAt (marks : List Mark) (id : VarId) : Option String :=
  (declaredNames marks)[id]?

section Fits

variable {whole past : List Mark}

/-- The name of the variable that is declared behind the marks. -/
theorem nameAt_declare {name : String} (h : past ++ [.declare name] <+: whole) :
    nameAt whole (declaredNames past).length = some name := by
  obtain ⟨rest, rfl⟩ := h
  rw [nameAt, declaredNames_append, declaredNames_append]
  simp [declaredNames, Mark.declared?]

/-- A name stands for a variable of that name. -/
theorem Binds.nameAt_eq {name : String} {id : VarId} (h : Binds past name id)
    (hpast : past <+: whole) : nameAt whole id = some name := by
  obtain ⟨before, between, rfl, -, -, rfl⟩ := h
  refine nameAt_declare (List.IsPrefix.trans ?_ hpast)
  exact ⟨between, by simp⟩

theorem prefix_enclosed {ms : List Mark} (h : past ++ enclosed ms <+: whole) :
    past ++ [.enter] ++ ms <+: whole := by
  refine List.IsPrefix.trans ⟨[.leave], ?_⟩ h
  simp [enclosed]

theorem Operator.fits {level : Nat} (op : Operator level) {names : VarId → Option String}
    {l r : ExprShape} {l' r' : Expr} (hl : l.Fits names l') (hr : r.Fits names r') :
    (operatorShape op.text l r).Fits names (op.combine l' r') := by
  have htables : ∀ level, ∀ entry ∈ operators level,
      (operatorShape entry.1 l r).Fits names (entry.2 l' r') := by
    intro level
    match level with
    | 0 => simp [operators, Parser.products, operatorShape, ExprShape.Fits, hl, hr]
    | 1 => simp [operators, Parser.sums, operatorShape, ExprShape.Fits, hl, hr]
    | 2 => simp [operators, Parser.comparisons, operatorShape, ExprShape.Fits, hl, hr]
    | _ + 3 => simp [operators]
  obtain ⟨before, after, hsplit, -⟩ := List.lookup_eq_some_iff.1 op.listed
  exact htables level (op.text, op.combine) (by simp [hsplit])

theorem fits_zero (names : VarId → Option String) : ExprShape.zero.Fits names (.num 0) := by
  rw [ExprShape.zero, ExprShape.Fits]
  decide +kernel

theorem fits_negate {names : VarId → Option String} {shape : ExprShape} {e : Expr}
    (h : shape.Fits names e) (n : Nat) :
    (Nat.repeat ExprShape.negate n shape).Fits names (Nat.repeat Parser.negate n e) := by
  induction n with
  | zero => exact h
  | succ n ih =>
      rw [Nat.repeat, Nat.repeat, ExprShape.negate, Parser.negate, ExprShape.Fits]
      exact ⟨rfl, fits_zero names, ih⟩

mutual

theorem fits_operand : ∀ {level : Nat} (t : Operand level) {past : List Mark} {e : Expr},
    t.Denotes past e → past ++ t.marks <+: whole → t.shape.Fits (nameAt whole) e
  | _, .unary signs operand, past, e, h, hpast => by
      rw [Operand.Denotes] at h
      rw [Operand.marks] at hpast
      obtain ⟨e', he', rfl⟩ := h
      rw [Operand.shape]
      exact fits_negate (fits_primary operand he' hpast) _
  | _, .chain first rest, past, e, h, hpast => by
      rw [Operand.Denotes] at h
      rw [Operand.marks, ← List.append_assoc] at hpast
      obtain ⟨left, hleft, hrest⟩ := h
      rw [Operand.shape]
      have hfirst := fits_operand first hleft ((List.prefix_append _ _).trans hpast)
      exact fits_links rest hfirst hrest hpast

theorem fits_links : ∀ {level : Nat} (t : Links level) {past : List Mark} {shape : ExprShape}
    {left e : Expr}, shape.Fits (nameAt whole) left → t.Denotes past left e →
      past ++ t.marks <+: whole → (t.shape shape).Fits (nameAt whole) e
  | _, .nil, past, shape, left, e, hleft, h, hpast => by
      rw [Links.Denotes] at h
      rw [Links.shape, h]
      exact hleft
  | _, .cons op operand rest, past, shape, left, e, hleft, h, hpast => by
      rw [Links.Denotes] at h
      rw [Links.marks, ← List.append_assoc] at hpast
      obtain ⟨right, hright, hrest⟩ := h
      rw [Links.shape]
      have hoperand := fits_operand operand hright ((List.prefix_append _ _).trans hpast)
      exact fits_links rest (op.fits hleft hoperand) hrest hpast

theorem fits_primary : ∀ (t : Primary) {past : List Mark} {e : Expr},
    t.Denotes past e → past ++ t.marks <+: whole → t.shape.Fits (nameAt whole) e
  | .num text, past, e, h, hpast => by
      rw [Primary.Denotes] at h
      obtain ⟨value, hvalue, rfl⟩ := h
      rw [Primary.shape, ExprShape.Fits]
      exact hvalue
  | .name text, past, e, h, hpast => by
      rw [Primary.Denotes] at h
      obtain ⟨id, hbinds, rfl⟩ := h
      rw [Primary.shape, ExprShape.Fits]
      exact hbinds.nameAt_eq ((List.prefix_append _ _).trans hpast)
  | .call callee args, past, e, h, hpast => by
      rw [Primary.Denotes] at h
      rw [Primary.marks] at hpast
      obtain ⟨es, hes, rfl⟩ := h
      rw [Primary.shape, ExprShape.Fits]
      exact ⟨rfl, fits_args args hes hpast⟩
  | .paren inner, past, e, h, hpast => by
      rw [Primary.Denotes] at h
      rw [Primary.marks] at hpast
      rw [Primary.shape]
      exact fits_operand inner h hpast

theorem fits_args : ∀ (t : Args) {past : List Mark} {es : List Expr},
    t.Denotes past es → past ++ t.marks <+: whole → ExprShape.AllFit (nameAt whole) t.shapes es
  | .close, past, es, h, hpast => by
      rw [Args.Denotes] at h
      rw [Args.shapes, h, ExprShape.AllFit]
      trivial
  | .last arg, past, es, h, hpast => by
      rw [Args.Denotes] at h
      rw [Args.marks] at hpast
      obtain ⟨e, he, rfl⟩ := h
      rw [Args.shapes, ExprShape.AllFit, ExprShape.AllFit]
      exact ⟨fits_operand arg he hpast, trivial⟩
  | .next arg rest, past, es, h, hpast => by
      rw [Args.Denotes] at h
      rw [Args.marks, ← List.append_assoc] at hpast
      obtain ⟨e, es', he, hes', rfl⟩ := h
      rw [Args.shapes, ExprShape.AllFit]
      have harg := fits_operand arg he ((List.prefix_append _ _).trans hpast)
      exact ⟨harg, fits_args rest hes' hpast⟩

end

theorem fits_optOperand {o : Option Expression} {e : Option Expr}
    (h : OptDenotes Operand.Denotes o past e) (hpast : past ++ optMarks Operand.marks o <+: whole) :
    ExprShape.OptFits (nameAt whole) (o.map Operand.shape) e := by
  cases o with
  | none =>
      obtain rfl : e = none := h
      trivial
  | some t =>
      obtain ⟨e', he', rfl⟩ := h
      exact fits_operand t he' hpast

theorem fits_simple {t : Simple} {s : Stmt} (h : t.Denotes past s)
    (hpast : past ++ t.marks <+: whole) : t.shape.Fits (nameAt whole) s := by
  obtain ⟨left, right⟩ := t
  rw [Simple.marks, ← List.append_assoc] at hpast
  have hleft := (List.prefix_append _ _).trans hpast
  cases right with
  | none =>
      obtain ⟨e, he, rfl⟩ := h
      show (StmtShape.expr left.shape).Fits _ _
      rw [StmtShape.Fits]
      exact fits_operand left he hleft
  | some right =>
      obtain ⟨id, e, hid, he, rfl⟩ := h
      show (StmtShape.assign left.shape right.shape).Fits _ _
      rw [StmtShape.Fits]
      exact ⟨fits_operand left hid hleft, fits_operand right he hpast⟩

theorem fits_optSimple {o : Option Simple} {s : Option Stmt}
    (h : OptDenotes Simple.Denotes o past s) (hpast : past ++ optMarks Simple.marks o <+: whole) :
    StmtShape.OptFits (nameAt whole) (o.map Simple.shape) s := by
  cases o with
  | none =>
      obtain rfl : s = none := h
      rw [Option.map_none, StmtShape.OptFits]
      trivial
  | some t =>
      obtain ⟨s', hs', rfl⟩ := h
      rw [Option.map_some, StmtShape.OptFits]
      exact fits_simple hs' hpast

/-- A declaration assigns to the variable that it declares. -/
theorem fits_local {t : Local} {s : Stmt} (h : t.Denotes past s)
    (hpast : past ++ t.marks <+: whole) : t.shape.Fits (nameAt whole) s := by
  cases t with
  | typed name value =>
      obtain ⟨e, he, rfl⟩ := h
      rw [Local.marks, ← List.append_assoc] at hpast
      rw [Local.shape, StmtShape.Fits, ExprShape.Fits]
      refine ⟨nameAt_declare hpast, ?_⟩
      cases value with
      | none =>
          obtain rfl : e = .num 0 := he
          exact fits_zero _
      | some value => exact fits_operand value he ((List.prefix_append _ _).trans hpast)
  | inferred name value =>
      obtain ⟨e, he, rfl⟩ := h
      rw [Local.marks, ← List.append_assoc] at hpast
      rw [Local.shape, StmtShape.Fits, ExprShape.Fits]
      exact ⟨nameAt_declare hpast, fits_operand value he ((List.prefix_append _ _).trans hpast)⟩

/-- A loop fits if its body does. -/
theorem fits_loop {head : LoopHead} {i p : Option Stmt} {c : Option Expr} {b : List Stmt}
    {shapes : List StmtShape} (h : head.Denotes past (i, c, p))
    (hpast : past ++ head.marks <+: whole)
    (hbody : StmtShape.AllFit (nameAt whole) shapes b) :
    (head.shape shapes).Fits (nameAt whole) (.loop i c p b) := by
  cases head with
  | forever =>
      cases h
      rw [LoopHead.shape, StmtShape.Fits, StmtShape.OptFits]
      exact ⟨trivial, trivial, trivial, hbody⟩
  | «while» cond =>
      obtain ⟨e, he, heq⟩ := h
      cases heq
      rw [LoopHead.shape, StmtShape.Fits, StmtShape.OptFits]
      exact ⟨trivial, fits_operand cond he hpast, trivial, hbody⟩
  | clauses init cond post =>
      obtain ⟨i', c', p', hi, hc, hp, heq⟩ := h
      cases heq
      rw [LoopHead.marks, ← List.append_assoc, ← List.append_assoc] at hpast
      have hcond := (List.prefix_append _ _).trans hpast
      have hinit := (List.prefix_append _ _).trans hcond
      rw [LoopHead.shape, StmtShape.Fits]
      exact ⟨fits_optSimple hi hinit, fits_optOperand hc hcond, fits_optSimple hp hpast, hbody⟩

mutual

theorem fits_statement : ∀ (t : Statement) {past : List Mark} {s : Stmt},
    t.Denotes past s → past ++ t.marks <+: whole → t.shape.Fits (nameAt whole) s
  | .ret value, past, s, h, hpast => by
      rw [Statement.Denotes] at h
      rw [Statement.marks] at hpast
      obtain ⟨e, he, rfl⟩ := h
      rw [Statement.shape, StmtShape.Fits]
      exact fits_operand value he hpast
  | .declare decl, past, s, h, hpast => by
      rw [Statement.Denotes] at h
      rw [Statement.marks] at hpast
      rw [Statement.shape]
      exact fits_local h hpast
  | .branch cases, past, s, h, hpast => by
      rw [Statement.Denotes] at h
      rw [Statement.marks] at hpast
      rw [Statement.shape]
      exact fits_conditional cases h hpast
  | .loop head body, past, s, h, hpast => by
      rw [Statement.Denotes] at h
      rw [Statement.marks] at hpast
      obtain ⟨i, c, p, b, hhead, hbody, rfl⟩ := h
      have hinside := prefix_enclosed hpast
      rw [← List.append_assoc] at hinside
      rw [Statement.shape]
      exact fits_loop hhead ((List.prefix_append _ _).trans hinside)
        (fits_body body hbody (prefix_enclosed hinside))
  | .block body, past, s, h, hpast => by
      rw [Statement.Denotes] at h
      rw [Statement.marks] at hpast
      obtain ⟨b, hb, rfl⟩ := h
      rw [Statement.shape, StmtShape.Fits]
      exact fits_body body hb (prefix_enclosed hpast)
  | .simple stmt, past, s, h, hpast => by
      rw [Statement.Denotes] at h
      rw [Statement.marks] at hpast
      rw [Statement.shape]
      exact fits_simple h hpast

theorem fits_conditional : ∀ (t : Conditional) {past : List Mark} {s : Stmt},
    t.Denotes past s → past ++ t.marks <+: whole → t.shape.Fits (nameAt whole) s
  | .mk init cond body other, past, s, h, hpast => by
      rw [Conditional.Denotes] at h
      rw [Conditional.marks] at hpast
      obtain ⟨i, c, b, o, hi, hc, hb, ho, rfl⟩ := h
      have hother := prefix_enclosed hpast
      rw [← List.append_assoc, ← List.append_assoc, ← List.append_assoc] at hother
      have hbody := (List.prefix_append _ _).trans hother
      have hcond := (List.prefix_append _ _).trans hbody
      have hinit := (List.prefix_append _ _).trans hcond
      rw [Conditional.shape, StmtShape.Fits]
      exact ⟨fits_optSimple hi hinit, fits_operand cond hc hcond,
        fits_body body hb (prefix_enclosed hbody), fits_otherwise other ho hother⟩

theorem fits_otherwise : ∀ (t : Otherwise) {past : List Mark} {s : Option Stmt},
    t.Denotes past s → past ++ t.marks <+: whole → StmtShape.OptFits (nameAt whole) t.shape s
  | .none, past, s, h, hpast => by
      rw [Otherwise.Denotes] at h
      rw [Otherwise.shape, h, StmtShape.OptFits]
      trivial
  | .elseIf cases, past, s, h, hpast => by
      rw [Otherwise.Denotes] at h
      rw [Otherwise.marks] at hpast
      obtain ⟨s', hs', rfl⟩ := h
      rw [Otherwise.shape, StmtShape.OptFits]
      exact fits_conditional cases hs' hpast
  | .elseBlock body, past, s, h, hpast => by
      rw [Otherwise.Denotes] at h
      rw [Otherwise.marks] at hpast
      obtain ⟨b, hb, rfl⟩ := h
      rw [Otherwise.shape, StmtShape.OptFits, StmtShape.Fits]
      exact fits_body body hb (prefix_enclosed hpast)

theorem fits_body : ∀ (t : Body) {past : List Mark} {ss : List Stmt},
    t.Denotes past ss → past ++ t.marks <+: whole → StmtShape.AllFit (nameAt whole) t.shapes ss
  | .close, past, ss, h, hpast => by
      rw [Body.Denotes] at h
      rw [Body.shapes, h, StmtShape.AllFit]
      trivial
  | .skip rest, past, ss, h, hpast => by
      rw [Body.Denotes] at h
      rw [Body.marks] at hpast
      rw [Body.shapes]
      exact fits_body rest h hpast
  | .last stmt, past, ss, h, hpast => by
      rw [Body.Denotes] at h
      rw [Body.marks] at hpast
      obtain ⟨s, hs, rfl⟩ := h
      rw [Body.shapes, StmtShape.AllFit, StmtShape.AllFit]
      exact ⟨fits_statement stmt hs hpast, trivial⟩
  | .next stmt rest, past, ss, h, hpast => by
      rw [Body.Denotes] at h
      rw [Body.marks, ← List.append_assoc] at hpast
      obtain ⟨s, ss', hs, hss', rfl⟩ := h
      rw [Body.shapes, StmtShape.AllFit]
      have hstmt := fits_statement stmt hs ((List.prefix_append _ _).trans hpast)
      exact ⟨hstmt, fits_body rest hss' hpast⟩

end

end Fits

/-- **What a function denotes fits its shape.** -/
theorem Function.Denotes.fits {t : Function} {f : MicroGo.Function} (h : t.Denotes f) :
    t.shape.Fits f := by
  have hnames : variableName f = nameAt t.marks := by
    funext id
    rw [nameAt, ← h.vars, variableName, MicroGo.Function.find?_eq_getElem?, List.getElem?_map]
  refine ⟨h.name, h.params, ?_⟩
  rw [hnames]
  refine fits_body t.body h.body ?_
  exact ⟨[.leave], by simp [Function.marks, enclosed]⟩

/-! ## Programs and derivations -/

theorem parse_of_nil {tokens : List Token} (h : lexemesOf tokens = []) :
    ∃ pos, (Program.parse tokens).result = .error ⟨.emptyProgram, pos⟩ := by
  have hahead : (Parser.State.ofTokens tokens).ahead = [] := List.map_eq_nil_iff.1 h
  have hend : Parser.atEnd (.ofTokens tokens) = .ok true (.ofTokens tokens) := by
    rw [Parser.atEnd, hahead]
    rfl
  refine ⟨(Parser.State.ofTokens tokens).current.pos, ?_⟩
  unfold Program.parse
  rw [Parser.program, Parser.bind_of_ok hend]
  rfl

/-- Tokens that spell functions have a program that denotes them, or break a static rule. -/
theorem parse_of_functions {tokens : List Token} {fs : List Function}
    (h : lexemesOf tokens = functionLexemes fs) :
    (∃ p, (Program.parse tokens).result = .ok p ∧
      List.Forall₂ Function.Denotes fs p.functions) ∨
    ∃ failure, (Program.parse tokens).result = .error failure ∧ failure.complaint.IsStatic := by
  cases fs with
  | nil =>
      obtain ⟨pos, hpos⟩ := parse_of_nil h
      exact .inr ⟨_, hpos, trivial⟩
  | cons f fs =>
      have hparse := parse_of_spells (t := ⟨f, fs⟩) h
      cases hr : Program.elaborate ⟨f, fs⟩ with
      | ok p =>
          rw [hr] at hparse
          exact .inl ⟨p, hparse, (program_eq_ok hr).2⟩
      | error c =>
          rw [hr] at hparse
          obtain ⟨pos, hpos⟩ := hparse
          exact .inr ⟨_, hpos, static_program hr⟩

/-- **Derived tokens are read**: they have a program of the shape of their derivation, or break a
static rule. -/
theorem Derivation.parse {source : String} {tokens : List Token}
    (h : (Token.scan source).result = .ok tokens) (d : Derivation (.ref .program))
    (hd : d.yield = tokens.map Token.toLexeme) :
    (∃ p, (Program.parse tokens).result = .ok p ∧
      List.Forall₂ FunctionShape.Fits d.shape p.functions) ∨
    ∃ failure, (Program.parse tokens).result = .error failure ∧ failure.complaint.IsStatic := by
  rw [map_toLexeme_of_scan h, ← d.lexemes_functions] at hd
  refine (parse_of_functions (List.append_cancel_right hd).symm).imp_left ?_
  rintro ⟨p, hp, hdenotes⟩
  refine ⟨p, hp, ?_⟩
  rw [← d.shape_functions, List.forall₂_map_left_iff]
  exact hdenotes.imp fun _ _ hf => hf.fits

/-- **The parser accepts exactly the grammar.**  If the tokens of a text have a program, they can be
derived from the rules, and the program has the shape of each of their derivations.  If they can be
derived, they have a program or break one of the static rules. -/
theorem parse_exact {source : String} {tokens : List Token}
    (h : (Token.scan source).result = .ok tokens) :
    (∀ p, (Program.parse tokens).result = .ok p →
      (∃ d : Derivation (.ref .program), d.yield = tokens.map Token.toLexeme) ∧
        ∀ d : Derivation (.ref .program), d.yield = tokens.map Token.toLexeme →
          List.Forall₂ FunctionShape.Fits d.shape p.functions) ∧
    ∀ d : Derivation (.ref .program), d.yield = tokens.map Token.toLexeme →
      (∃ p, (Program.parse tokens).result = .ok p) ∨
        ∃ failure, (Program.parse tokens).result = .error failure ∧
          failure.complaint.IsStatic := by
  constructor
  · intro p hp
    constructor
    · obtain ⟨t, ht⟩ := exists_spells hp
      obtain ⟨d, hd⟩ := derives_functions t.functions
      exact ⟨d, by rw [hd, map_toLexeme_of_scan h, ht]⟩
    · intro d hd
      rcases d.parse h hd with ⟨p', hp', hfits⟩ | ⟨failure, hfailure, -⟩
      · rw [hp] at hp'
        cases hp'
        exact hfits
      · rw [hp] at hfailure
        cases hfailure
  · intro d hd
    exact (d.parse h hd).imp_left fun ⟨p, hp, _⟩ => ⟨p, hp⟩

/-- A text with stray semicolons, commas behind the last parameter and the last argument, signs,
parentheses and a chain of conditionals; and a text of the grammar that defines a function twice. -/
theorem parse_exact_stray :
    (∃ tokens p, ∃ d : Derivation (.ref .program),
      (Token.scan ("func f(a int,) int \x7b;; if a >= -1 \x7b return +(g(a,)) \x7d " ++
        "else if a \x7b \x7d; for ; ; \x7b \x7d \x7d\n")).result = .ok tokens ∧
      (Program.parse tokens).result = .ok p ∧ d.yield = tokens.map Token.toLexeme ∧
      p.functions.map MicroGo.Function.body =
        [[.branch none (.binary .le (.binary .sub (.num 0) (.num 1)) (.var 0))
          [.ret (.call "g" [.var 0])] (some (.branch none (.var 0) [] none)),
          .loop none none none []]] ∧
      List.Forall₂ FunctionShape.Fits d.shape p.functions) ∧
    ∃ tokens failure, ∃ d : Derivation (.ref .program),
      (Token.scan "func f() \x7b \x7d\nfunc f() \x7b \x7d\n").result = .ok tokens ∧
      d.yield = tokens.map Token.toLexeme ∧
      (Program.parse tokens).result = .error failure ∧ failure.complaint.IsStatic := by
  constructor
  · have hread : ((Token.scan ("func f(a int,) int \x7b;; if a >= -1 \x7b return +(g(a,)) \x7d " ++
        "else if a \x7b \x7d; for ; ; \x7b \x7d \x7d\n")).result.toOption.bind
          fun tokens => (Program.parse tokens).result.toOption).map
            (fun p => p.functions.map MicroGo.Function.body) =
        some [[.branch none (.binary .le (.binary .sub (.num 0) (.num 1)) (.var 0))
          [.ret (.call "g" [.var 0])] (some (.branch none (.var 0) [] none)),
          .loop none none none []]] := by
      decide +kernel
    obtain ⟨p, hp, hbody⟩ := Option.map_eq_some_iff.1 hread
    obtain ⟨tokens, htokens, hparse⟩ := Option.bind_eq_some_iff.1 hp
    obtain ⟨⟨d, hd⟩, hall⟩ :=
      (parse_exact (eq_ok_of_toOption htokens)).1 p (eq_ok_of_toOption hparse)
    exact ⟨tokens, p, d, eq_ok_of_toOption htokens, eq_ok_of_toOption hparse, hd, hbody, hall d hd⟩
  · have hspells : ((Token.scan "func f() \x7b \x7d\nfunc f() \x7b \x7d\n").result.toOption.map
          fun tokens => (tokens.map Token.toLexeme, (Program.parse tokens).result.isOk)) =
        some (functionLexemes (.replicate 2 ⟨"f", .close, false, .close⟩) ++ [⟨.eof, ""⟩],
          false) := by
      decide +kernel
    obtain ⟨tokens, htokens, hlexemes⟩ := Option.map_eq_some_iff.1 hspells
    rw [Prod.mk.injEq] at hlexemes
    obtain ⟨d, hd⟩ := derives_functions (.replicate 2 ⟨"f", .close, false, .close⟩)
    rw [← hlexemes.1] at hd
    rcases (parse_exact (eq_ok_of_toOption htokens)).2 d hd with
      ⟨p, hp⟩ | ⟨failure, hfailure, hstatic⟩
    · rw [hp] at hlexemes
      cases hlexemes.2
    · exact ⟨tokens, failure, d, eq_ok_of_toOption htokens, hd, hfailure, hstatic⟩

end Grammar
end MicroGo
