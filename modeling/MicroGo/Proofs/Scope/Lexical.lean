import MicroGo.Program.Equality
import MicroGo.Proofs.Compile.Stages
import MicroGo.Proofs.Scope.Denotation

/-!
# Names are resolved lexically

Names are resolved in one pass over the text, with a stack of open scopes.  This module shows that
the pass does what lexical scoping asks for, on the list of marks that the text has.

Elaboration of a sentence follows its marks (`Traces`).  If it succeeds, then the names that are
known behind the sentence are those that its marks give, each mark may stand where it stands, and
the result is what the sentence stands for.  If it fails with a complaint about a variable, then
some mark may not stand where it stands; and it fails with no other complaint as long as the rules
are kept that are not about variables.

`Traces` composes like elaboration does, so there is one short proof for each form of a sentence.
-/

namespace MicroGo

/-- The complaint is about the name of a variable. -/
def Complaint.IsAboutVariable : Complaint → Prop
  | undefinedVariable _ => True
  | redeclaredVariable _ => True
  | _ => False

namespace Grammar

variable {α β : Type} {past ms ms' : List Mark} {denotes : α → Prop} {denotes' : β → Prop}
  {proper proper' : Prop}

/-! ## Following marks -/

/-- **Elaboration follows the marks** `ms` of a sentence that stands behind the marks `past`. -/
structure Traces (x : Elaboration α) (past ms : List Mark) (denotes : α → Prop) (proper : Prop) :
    Prop where
  ok : ∀ a names, x (Names.after past) = .ok (a, names) →
    names = Names.after (past ++ ms) ∧
      names.scopes.length = (Names.after past).scopes.length ∧ Legal past ms ∧ denotes a
  error : ∀ c, x (Names.after past) = .error c →
    (c.IsAboutVariable → ¬ Legal past ms) ∧ (proper → c.IsAboutVariable)

theorem traces_pure {a : α} (h : denotes a) : Traces (pure a) past [] denotes proper where
  ok := by
    rintro _ _ ⟨⟩
    rw [List.append_nil]
    exact ⟨rfl, rfl, trivial, h⟩
  error := nofun

theorem Traces.imp {denotes' : α → Prop} {x : Elaboration α} (h : Traces x past ms denotes proper)
    (hdenotes : ∀ a, denotes a → denotes' a) (hproper : proper' → proper) :
    Traces x past ms denotes' proper' where
  ok := fun a names hr =>
    let ⟨hnames, hdepth, hlegal, ha⟩ := h.ok a names hr
    ⟨hnames, hdepth, hlegal, hdenotes a ha⟩
  error := fun c hr =>
    let ⟨hbroken, hother⟩ := h.error c hr
    ⟨hbroken, fun hp => hother (hproper hp)⟩

/-- One elaboration after another follows the marks of the one and then those of the other. -/
theorem Traces.bind {x : Elaboration α} {f : α → Elaboration β}
    (hx : Traces x past ms denotes proper)
    (hf : ∀ a, denotes a →
      (Names.after (past ++ ms)).scopes.length = (Names.after past).scopes.length →
        Traces (f a) (past ++ ms) ms' denotes' proper') :
    Traces (x >>= f) past (ms ++ ms') denotes' (proper ∧ proper') where
  ok := by
    intro b names hr
    obtain ⟨a, mid, hr₁, hr₂⟩ := bind_eq_ok hr
    obtain ⟨rfl, hdepth₁, hlegal₁, ha⟩ := hx.ok a mid hr₁
    obtain ⟨hnames, hdepth₂, hlegal₂, hb⟩ := (hf a ha hdepth₁).ok b names hr₂
    refine ⟨?_, hdepth₂.trans hdepth₁, legal_append.2 ⟨hlegal₁, hlegal₂⟩, hb⟩
    rw [hnames, List.append_assoc]
  error := by
    intro c hr
    rcases except_bind_eq_error.1 hr with hr | ⟨⟨a, mid⟩, hr₁, hr₂⟩
    · obtain ⟨hbroken, hother⟩ := hx.error c hr
      exact ⟨fun hc hlegal => hbroken hc (legal_append.1 hlegal).1, fun hp => hother hp.1⟩
    · obtain ⟨rfl, hdepth, -, ha⟩ := hx.ok a mid hr₁
      obtain ⟨hbroken, hother⟩ := (hf a ha hdepth).error c hr₂
      exact ⟨fun hc hlegal => hbroken hc (legal_append.1 hlegal).2, fun hp => hother hp.2⟩

/-- What is done with a result leaves no mark. -/
theorem Traces.bind_nil {x : Elaboration α} {f : α → Elaboration β}
    (hx : Traces x past ms denotes proper)
    (hf : ∀ a, denotes a → Traces (f a) (past ++ ms) [] denotes' proper') :
    Traces (x >>= f) past ms denotes' (proper ∧ proper') := by
  have h : Traces (x >>= f) past (ms ++ []) denotes' (proper ∧ proper') :=
    hx.bind fun a ha _ => hf a ha
  rwa [List.append_nil] at h

/-- What is done with a result can break no rule but those about variables. -/
theorem Traces.bind_true {x : Elaboration α} {f : α → Elaboration β}
    (hx : Traces x past ms denotes proper)
    (hf : ∀ a, denotes a →
      (Names.after (past ++ ms)).scopes.length = (Names.after past).scopes.length →
        Traces (f a) (past ++ ms) ms' denotes' True) :
    Traces (x >>= f) past (ms ++ ms') denotes' proper :=
  (hx.bind hf).imp (fun _ hb => hb) fun hp => ⟨hp, trivial⟩

theorem Traces.map {x : Elaboration α} {f : α → β} (hx : Traces x past ms denotes proper)
    (hf : ∀ a, denotes a → denotes' (f a)) :
    Traces (do return f (← x)) past ms denotes' proper := by
  have h : Traces (do return f (← x)) past (ms ++ []) denotes' proper :=
    hx.bind_true fun a ha _ => traces_pure (hf a ha)
  rwa [List.append_nil] at h

/-- A rule is broken that is not about variables. -/
theorem traces_throw {c : Complaint} (hc : ¬ c.IsAboutVariable) (h : ¬ proper) :
    Traces (throw c : Elaboration α) past ms denotes proper where
  ok := nofun
  error := by
    rintro _ ⟨⟩
    exact ⟨fun hc' => absurd hc' hc, fun hp => absurd hp h⟩

theorem legal_enclosed : Legal past (enclosed ms) ↔ Legal (past ++ [.enter]) ms := by
  unfold enclosed
  rw [Legal, legal_append, Legal, Legal, Mark.Admitted, Mark.Admitted]
  simp

theorem after_enclosed : Names.after (past ++ enclosed ms) =
    (Names.after (past ++ [.enter] ++ ms)).leave := by
  have hsplit : past ++ enclosed ms = past ++ [.enter] ++ ms ++ [.leave] := by simp [enclosed]
  rw [hsplit, after_snoc]
  rfl

/-- Elaboration in a scope of its own follows the marks with the scope around them. -/
theorem Traces.inScope {x : Elaboration α} (h : Traces x (past ++ [.enter]) ms denotes proper) :
    Traces (inScope x) past (enclosed ms) denotes proper where
  ok := by
    intro a names hr
    obtain ⟨mid, hmid, hnames⟩ := inScope_eq_ok hr
    rw [← after_enter] at hmid
    obtain ⟨rfl, hdepth, hlegal, ha⟩ := h.ok a mid hmid
    refine ⟨hnames.trans after_enclosed.symm, ?_, legal_enclosed.2 hlegal, ha⟩
    rw [after_enter] at hdepth
    calc names.scopes.length
        = (Names.after (past ++ [Mark.enter] ++ ms)).leave.scopes.length := by rw [← hnames]
      _ = (Names.after (past ++ [Mark.enter] ++ ms)).scopes.length - 1 := List.length_tail
      _ = (Names.after past).scopes.length := by
        rw [hdepth]
        rfl
  error := by
    intro c hr
    rw [legal_enclosed]
    refine h.error c ?_
    rw [after_enter]
    unfold Grammar.inScope at hr
    cases hx : x (Names.after past).enter with
    | error c' =>
        rw [hx] at hr
        cases hr
        rfl
    | ok r =>
        rw [hx] at hr
        cases hr

/-! ## Names -/

theorem lookup_eq_error {names : Names} {x : Scopes → Except Complaint α} {c : Complaint}
    (h : lookup x names = .error c) : x names.scopes = .error c := by
  unfold lookup at h
  cases hx : x names.scopes with
  | error c' =>
      rw [hx] at h
      cases h
      rfl
  | ok a =>
      rw [hx] at h
      cases h

/-- A name that is used is looked up in the open scopes. -/
theorem traces_use (text : String) :
    Traces (lookup fun scopes => (Primary.name text).elaborate scopes) past [.use text]
      ((Primary.name text).Denotes past) proper where
  ok := by
    intro e names hr
    obtain ⟨he, rfl⟩ := lookup_eq_ok hr
    cases hfind : (Names.after past).scopes.find? text with
    | none =>
        rw [Primary.elaborate_of_find?_eq_none hfind] at he
        cases he
    | some id =>
        rw [Primary.elaborate_of_find?_eq_some hfind] at he
        obtain rfl := Except.ok.inj he
        have hbinds := (find?_after past text id).1 hfind
        refine ⟨(after_snoc past (.use text)).symm, rfl, ⟨⟨id, hbinds⟩, trivial⟩, ?_⟩
        rw [Primary.Denotes]
        exact ⟨id, hbinds, rfl⟩
  error := by
    intro c hr
    have hc := lookup_eq_error hr
    cases hfind : (Names.after past).scopes.find? text with
    | some id =>
        rw [Primary.elaborate_of_find?_eq_some hfind] at hc
        cases hc
    | none =>
        rw [Primary.elaborate_of_find?_eq_none hfind] at hc
        obtain rfl := Except.error.inj hc
        refine ⟨?_, fun _ => trivial⟩
        rintro - ⟨⟨id, hbinds⟩, -⟩
        rw [(find?_after past text id).2 hbinds] at hfind
        cases hfind

/-- A declaration is refused or adds its mark. -/
theorem declare_eq {names : Names} (name : String) (hopen : 0 < names.scopes.length) :
    declare name names =
      if Scope.knows (names.scopes.headD []) name then .error (.redeclaredVariable name)
      else .ok (names.declared.length, names.step (.declare name)) := by
  cases hscopes : names.scopes with
  | nil =>
      rw [hscopes] at hopen
      exact absurd hopen (Nat.lt_irrefl 0)
  | cons scope outer =>
      rw [declare_of_cons name hscopes, Names.step, hscopes]
      rfl

theorem length_scopes_step_declare {names : Names} (name : String)
    (hopen : 0 < names.scopes.length) :
    (names.step (.declare name)).scopes.length = names.scopes.length := by
  show (_ :: names.scopes.tail).length = _
  rw [List.length_cons, List.length_tail]
  omega

/-- A declaration takes the next number. -/
theorem traces_declare (name : String) (hopen : 0 < (Names.after past).scopes.length) :
    Traces (declare name) past [.declare name] (fun id => id = (declaredNames past).length)
      proper := by
  have heq := declare_eq name hopen
  by_cases hknows : Scope.knows ((Names.after past).scopes.headD []) name
  · rw [if_pos hknows] at heq
    refine ⟨fun id names hr => ?_, fun c hr => ?_⟩
    · rw [heq] at hr
      cases hr
    · rw [heq] at hr
      cases hr
      refine ⟨?_, fun _ => trivial⟩
      rintro - ⟨hfresh, -⟩
      exact hfresh ((knows_after past name).1 hknows)
  · rw [if_neg hknows] at heq
    refine ⟨fun id names hr => ?_, fun c hr => ?_⟩
    · rw [heq] at hr
      cases hr
      refine ⟨(after_snoc past _).symm, length_scopes_step_declare name hopen, ⟨?_, trivial⟩,
        length_declared_after past⟩
      exact fun hhere => hknows ((knows_after past name).2 hhere)
    · rw [heq] at hr
      cases hr

/-! ## Expressions -/

theorem Args.Denotes.length_eq (t : Args) {past : List Mark} {es : List Expr}
    (h : t.Denotes past es) : es.length = t.count := by
  cases t with
  | close =>
      rw [Args.Denotes] at h
      rw [h]
      rfl
  | last arg =>
      rw [Args.Denotes] at h
      obtain ⟨e, -, rfl⟩ := h
      rfl
  | next arg rest =>
      rw [Args.Denotes] at h
      obtain ⟨e, es', -, hrest, rfl⟩ := h
      rw [List.length_cons, Args.Denotes.length_eq rest hrest, Args.count]

mutual

/-- A name stands for a variable. -/
theorem Operand.Denotes.exists_var : ∀ {level : Nat} (t : Operand level) ⦃past : List Mark⦄
    ⦃e : Expr⦄, t.Denotes past e → t.IsName → ∃ id, e = .var id
  | _, .unary signs operand => by
      intro past e h hname
      rw [Operand.Denotes] at h
      rw [Operand.IsName] at hname
      obtain ⟨e', he', rfl⟩ := h
      rw [List.count_eq_zero.2 hname.1]
      exact Primary.Denotes.exists_var operand he' hname.2
  | _, .chain first .nil => by
      intro past e h hname
      rw [Operand.Denotes] at h
      rw [Operand.IsName] at hname
      obtain ⟨left, hleft, hrest⟩ := h
      rw [Links.Denotes] at hrest
      rw [hrest]
      exact Operand.Denotes.exists_var first hleft hname
  | _, .chain _ (.cons ..) => by
      intro past e _ hname
      rw [Operand.IsName] at hname
      exact hname.elim

theorem Primary.Denotes.exists_var : ∀ (t : Primary) ⦃past : List Mark⦄ ⦃e : Expr⦄,
    t.Denotes past e → t.IsName → ∃ id, e = .var id
  | .name text => by
      intro past e h _
      rw [Primary.Denotes] at h
      obtain ⟨id, -, rfl⟩ := h
      exact ⟨id, rfl⟩
  | .paren inner => by
      intro past e h hname
      rw [Primary.Denotes] at h
      rw [Primary.IsName] at hname
      exact Operand.Denotes.exists_var inner h hname
  | .num text => by
      intro past e _ hname
      rw [Primary.IsName] at hname
      exact hname.elim
  | .call callee args => by
      intro past e _ hname
      rw [Primary.IsName] at hname
      exact hname.elim

end

mutual

/-- Elaboration of an operand follows its marks. -/
theorem traces_operand : ∀ {level : Nat} (t : Operand level) (past : List Mark),
    Traces (lookup fun scopes => t.elaborate scopes) past t.marks (t.Denotes past) t.Proper
  | _, .unary signs operand => by
      intro past
      rw [lookup_unary, Operand.marks, Operand.Proper]
      refine (traces_primary operand past).map fun e he => ?_
      rw [Operand.Denotes]
      exact ⟨e, he, rfl⟩
  | _, .chain first rest => by
      intro past
      rw [lookup_chain, Operand.marks, Operand.Proper]
      refine (traces_operand first past).bind fun left hleft _ => ?_
      refine (traces_links rest left (past ++ first.marks)).imp (fun e he => ?_) id
      rw [Operand.Denotes]
      exact ⟨left, hleft, he⟩

theorem traces_links : ∀ {level : Nat} (t : Links level) (left : Expr) (past : List Mark),
    Traces (lookup fun scopes => t.elaborate scopes left) past t.marks (t.Denotes past left)
      t.Proper
  | _, .nil => by
      intro left past
      simp only [Links.elaborate, Links.marks]
      refine traces_pure ?_
      rw [Links.Denotes]
  | _, .cons op operand rest => by
      intro left past
      rw [lookup_links, Links.marks, Links.Proper]
      refine (traces_operand operand past).bind fun right hright _ => ?_
      refine (traces_links rest _ (past ++ operand.marks)).imp (fun e he => ?_) id
      rw [Links.Denotes]
      exact ⟨right, hright, he⟩

theorem traces_primary : ∀ (t : Primary) (past : List Mark),
    Traces (lookup fun scopes => t.elaborate scopes) past t.marks (t.Denotes past) t.Proper
  | .num text => by
      intro past
      simp only [Primary.elaborate, Primary.marks]
      cases hread : Numeral.read? text with
      | none =>
          refine traces_throw id ?_
          simp [Primary.Proper, hread]
      | some value =>
          refine traces_pure ?_
          rw [Primary.Denotes]
          exact ⟨value, hread, rfl⟩
  | .name text => fun past => by
      rw [Primary.marks]
      exact traces_use text
  | .call callee args => by
      intro past
      rw [lookup_call, Primary.marks, Primary.Proper]
      refine (traces_args args past).bind_nil fun es hes => ?_
      have hlength := Args.Denotes.length_eq args hes
      by_cases hcount : es.length ≤ maxArguments
      · rw [if_pos hcount]
        refine traces_pure ?_
        rw [Primary.Denotes]
        exact ⟨es, hes, rfl⟩
      · rw [if_neg hcount]
        refine traces_throw id ?_
        rwa [← hlength]
  | .paren inner => by
      intro past
      simp only [Primary.elaborate, Primary.marks, Primary.Proper]
      refine (traces_operand inner past).imp (fun e he => ?_) id
      rw [Primary.Denotes]
      exact he

theorem traces_args : ∀ (t : Args) (past : List Mark),
    Traces (lookup fun scopes => t.elaborate scopes) past t.marks (t.Denotes past) t.Proper
  | .close => by
      intro past
      simp only [Args.elaborate, Args.marks]
      refine traces_pure ?_
      rw [Args.Denotes]
  | .last arg => by
      intro past
      simp only [Args.elaborate, Args.marks, Args.Proper]
      rw [lookup_bind]
      refine (traces_operand arg past).map fun e he => ?_
      rw [Args.Denotes]
      exact ⟨e, he, rfl⟩
  | .next arg rest => by
      intro past
      simp only [Args.elaborate, Args.marks, Args.Proper]
      rw [lookup_bind]
      refine (traces_operand arg past).bind fun e he _ => ?_
      rw [lookup_bind]
      refine (traces_args rest (past ++ arg.marks)).map fun es hes => ?_
      rw [Args.Denotes]
      exact ⟨e, es, he, hes, rfl⟩

end

theorem traces_expression (t : Expression) (past : List Mark) :
    Traces t.resolve past t.marks (t.Denotes past) t.Proper :=
  traces_operand t past

/-! ## Statements -/

theorem traces_simple (t : Simple) (past : List Mark) :
    Traces t.elaborate past t.marks (t.Denotes past) t.Proper := by
  obtain ⟨left, right⟩ := t
  refine (traces_expression left past).bind fun e he _ => ?_
  cases right with
  | none => exact traces_pure ⟨e, he, rfl⟩
  | some right =>
      cases e with
      | var id =>
          refine (((traces_expression right _).map fun e' he' => ?_).imp (fun s hs => hs) And.right)
          exact ⟨id, e', he, he', rfl⟩
      | num _ | binary _ _ _ | call _ _ =>
          refine traces_throw id ?_
          rintro ⟨hname, -⟩
          obtain ⟨id, hid⟩ := Operand.Denotes.exists_var left he hname
          cases hid

theorem traces_firstValue (value : Option Expression) (past : List Mark) :
    Traces (firstValue value) past (optMarks Operand.marks value) (FirstValueDenotes value past)
      (OptProper Operand.Proper value) := by
  cases value with
  | none => exact traces_pure rfl
  | some value => exact traces_expression value past

/-- A variable is declared behind its first value, and then assigned to. -/
theorem Traces.declare {x : Elaboration Expr} {denotes : Expr → Prop} (name : String)
    (hx : Traces x past ms denotes proper) (hopen : 0 < (Names.after past).scopes.length) :
    Traces (do
        let e ← x
        return Stmt.assign (← Grammar.declare name) e) past (ms ++ [.declare name])
      (fun s => ∃ e, denotes e ∧ s = .assign (declaredNames (past ++ ms)).length e) proper := by
  refine hx.bind_true fun e he hdepth => ?_
  refine (traces_declare name (hdepth ▸ hopen)).map fun id hid => ?_
  rw [hid]
  exact ⟨e, he, rfl⟩

theorem traces_local (t : Local) {past : List Mark} (hopen : 0 < (Names.after past).scopes.length) :
    Traces t.elaborate past t.marks (t.Denotes past) t.Proper := by
  cases t with
  | typed name value => exact (traces_firstValue value past).declare name hopen
  | inferred name value => exact (traces_expression value past).declare name hopen

/-- A part that may be missing. -/
theorem traces_optionally {f : α → Elaboration β} {marks : α → List Mark}
    {denotes : α → List Mark → β → Prop} {proper : α → Prop}
    (h : ∀ a past, Traces (f a) past (marks a) (denotes a past) (proper a)) (part : Option α)
    (past : List Mark) :
    Traces (optionally f part) past (optMarks marks part) (OptDenotes denotes part past)
      (OptProper proper part) := by
  cases part with
  | none => exact traces_pure rfl
  | some a => exact (h a past).map fun b hb => ⟨b, hb, rfl⟩

theorem traces_loopHead (t : LoopHead) (past : List Mark) :
    Traces t.elaborate past t.marks (t.Denotes past) t.Proper := by
  cases t with
  | forever => exact traces_pure rfl
  | «while» cond => exact (traces_expression cond past).map fun c hc => ⟨c, hc, rfl⟩
  | clauses init cond post =>
      refine (traces_optionally traces_simple init past).bind fun i hi _ => ?_
      refine (traces_optionally traces_expression cond _).bind fun c hc _ => ?_
      exact (traces_optionally traces_simple post _).map fun p hp => ⟨i, c, p, hi, hc, hp, rfl⟩

theorem length_scopes_enter (past : List Mark) :
    0 < (Names.after (past ++ [.enter])).scopes.length := by
  rw [after_enter]
  exact Nat.succ_pos _

mutual

/-- Elaboration of a statement follows its marks. -/
theorem traces_statement : ∀ (t : Statement) ⦃past : List Mark⦄,
    0 < (Names.after past).scopes.length →
      Traces t.elaborate past t.marks (t.Denotes past) t.Proper
  | .ret value => by
      intro past _
      simp only [Statement.elaborate, Statement.marks, Statement.Proper]
      refine (traces_expression value past).map fun e he => ?_
      rw [Statement.Denotes]
      exact ⟨e, he, rfl⟩
  | .declare decl => by
      intro past hopen
      simp only [Statement.elaborate, Statement.marks, Statement.Proper]
      refine (traces_local decl hopen).imp (fun s hs => ?_) id
      rwa [Statement.Denotes]
  | .branch cases => by
      intro past _
      simp only [Statement.elaborate, Statement.marks, Statement.Proper]
      refine (traces_conditional cases past).imp (fun s hs => ?_) id
      rwa [Statement.Denotes]
  | .loop head body => by
      intro past _
      simp only [Statement.elaborate, Statement.marks, Statement.Proper]
      refine Traces.inScope ((traces_loopHead head _).bind fun parts hparts _ => ?_)
      refine (traces_body body (length_scopes_enter _)).inScope.map fun b hb => ?_
      rw [Statement.Denotes]
      exact ⟨_, _, _, b, hparts, hb, rfl⟩
  | .block body => by
      intro past _
      simp only [Statement.elaborate, Statement.marks, Statement.Proper]
      refine (traces_body body (length_scopes_enter _)).inScope.map fun b hb => ?_
      rw [Statement.Denotes]
      exact ⟨b, hb, rfl⟩
  | .simple stmt => by
      intro past _
      simp only [Statement.elaborate, Statement.marks, Statement.Proper]
      refine (traces_simple stmt past).imp (fun s hs => ?_) id
      rwa [Statement.Denotes]

theorem traces_conditional : ∀ (t : Conditional) (past : List Mark),
    Traces t.elaborate past t.marks (t.Denotes past) t.Proper
  | .mk init cond body other => by
      intro past
      simp only [Conditional.elaborate, Conditional.marks, Conditional.Proper]
      refine Traces.inScope ((traces_optionally traces_simple init _).bind fun i hi _ => ?_)
      refine (traces_expression cond _).bind fun c hc _ => ?_
      refine (traces_body body (length_scopes_enter _)).inScope.bind fun b hb _ => ?_
      refine (traces_otherwise other _).map fun o ho => ?_
      rw [Conditional.Denotes]
      exact ⟨i, c, b, o, hi, hc, hb, ho, rfl⟩

theorem traces_otherwise : ∀ (t : Otherwise) (past : List Mark),
    Traces t.elaborate past t.marks (t.Denotes past) t.Proper
  | .none => by
      intro past
      simp only [Otherwise.elaborate, Otherwise.marks]
      refine traces_pure ?_
      rw [Otherwise.Denotes]
  | .elseIf cases => by
      intro past
      simp only [Otherwise.elaborate, Otherwise.marks, Otherwise.Proper]
      refine (traces_conditional cases past).map fun s hs => ?_
      rw [Otherwise.Denotes]
      exact ⟨s, hs, rfl⟩
  | .elseBlock body => by
      intro past
      simp only [Otherwise.elaborate, Otherwise.marks, Otherwise.Proper]
      refine (traces_body body (length_scopes_enter _)).inScope.map fun b hb => ?_
      rw [Otherwise.Denotes]
      exact ⟨b, hb, rfl⟩

theorem traces_body : ∀ (t : Body) ⦃past : List Mark⦄, 0 < (Names.after past).scopes.length →
    Traces t.elaborate past t.marks (t.Denotes past) t.Proper
  | .close => by
      intro past _
      simp only [Body.elaborate, Body.marks]
      refine traces_pure ?_
      rw [Body.Denotes]
  | .skip rest => by
      intro past hopen
      simp only [Body.elaborate, Body.marks, Body.Proper]
      refine (traces_body rest hopen).imp (fun ss hss => ?_) id
      rwa [Body.Denotes]
  | .last stmt => by
      intro past hopen
      simp only [Body.elaborate, Body.marks, Body.Proper]
      refine (traces_statement stmt hopen).map fun s hs => ?_
      rw [Body.Denotes]
      exact ⟨s, hs, rfl⟩
  | .next stmt rest => by
      intro past hopen
      simp only [Body.elaborate, Body.marks, Body.Proper]
      refine (traces_statement stmt hopen).bind fun s hs hdepth => ?_
      refine (traces_body rest (hdepth ▸ hopen)).map fun ss hss => ?_
      rw [Body.Denotes]
      exact ⟨s, ss, hs, hss, rfl⟩

end

/-! ## Functions -/

theorem traces_parameter (count : Nat) (name : String)
    (hopen : 0 < (Names.after past).scopes.length) :
    Traces (parameter count name) past [.declare name] (fun n => n = count + 1)
      (count + 1 ≤ maxArguments) := by
  unfold parameter
  by_cases hcount : count < maxArguments
  · rw [if_pos hcount]
    exact (traces_declare name hopen).map fun _ _ => rfl
  · rw [if_neg hcount]
    exact traces_throw id hcount

theorem traces_params (t : Params) (count : Nat) {past : List Mark}
    (hopen : 0 < (Names.after past).scopes.length) :
    Traces (t.elaborate count) past t.marks (fun n => n = count + t.names.length)
      (count + t.names.length ≤ maxArguments) := by
  induction t generalizing count past with
  | close => exact traces_pure rfl
  | last name => exact traces_parameter count name hopen
  | next name rest ih =>
      have hnext : Traces ((Params.next name rest).elaborate count) past
          ([.declare name] ++ rest.marks) (fun n => n = count + 1 + rest.names.length)
          (count + 1 ≤ maxArguments ∧ count + 1 + rest.names.length ≤ maxArguments) := by
        refine (traces_parameter count name hopen).bind fun n hn hdepth => ?_
        rw [hn]
        exact ih (count + 1) (hdepth ▸ hopen)
      refine hnext.imp (fun n hn => ?_) fun hp => ?_
      · rw [hn, Params.names, List.length_cons]
        omega
      · rw [Params.names, List.length_cons] at hp
        omega

/-- Elaboration of a function follows its marks. -/
theorem traces_function (t : Function) :
    Traces t.scoped [] t.marks
      (fun r => r.1 = t.params.names.length ∧ t.body.Denotes (.enter :: t.params.marks) r.2)
      t.Proper := by
  have hopen := length_scopes_enter []
  have hparams : Traces (t.params.elaborate 0) ([] ++ [.enter]) t.params.marks
      (fun n => n = t.params.names.length) (t.params.names.length ≤ maxArguments) := by
    have h := traces_params t.params 0 hopen
    rwa [Nat.zero_add] at h
  refine Traces.inScope (hparams.bind fun count hcount hdepth => ?_)
  exact (traces_body t.body (hdepth ▸ hopen)).map fun b hb => ⟨hcount, hb⟩

theorem names_place (used : Int) (ds : List Declaration) :
    (Frame.place used ds).map Variable.name = ds.map Declaration.name := by
  induction ds generalizing used with
  | nil => rfl
  | cons d ds ih => rw [Frame.place, List.map_cons, List.map_cons, ih]

theorem declaredNames_append (ms ms' : List Mark) :
    declaredNames (ms ++ ms') = declaredNames ms ++ declaredNames ms' :=
  List.filterMap_append

/-- The parameters are the first variables. -/
theorem declaredNames_marks (t : Function) :
    declaredNames t.marks = t.params.names ++ declaredNames t.body.marks := by
  have hparams : declaredNames t.params.marks = t.params.names := by
    show (t.params.names.map Mark.declare).filterMap Mark.declared? = _
    rw [List.filterMap_map]
    exact List.filterMap_some
  show declaredNames ((t.params.marks ++ t.body.marks) ++ [.leave]) = _
  rw [declaredNames_append, declaredNames_append, hparams]
  exact List.append_nil _

theorem denotes_ofDeclarations (t : Function) {body : List Stmt}
    (hbody : t.body.Denotes (.enter :: t.params.marks) body) :
    t.Denotes (.ofDeclarations t.name t.params.names.length (Names.after t.marks).declared
      body) := by
  have hnames : (Frame.place 0 (Names.after t.marks).declared).map Variable.name =
      declaredNames t.marks := by
    rw [names_place, declared_after, List.map_map]
    exact List.map_id _
  refine ⟨rfl, ?_, ?_, hbody⟩
  · show ((Frame.place 0 _).take _).map Variable.name = _
    rw [List.map_take, hnames, declaredNames_marks, List.take_left]
  · rw [MicroGo.Function.vars_ofDeclarations, hnames]

theorem function_eq_ok {t : Function} {names names' : Names} {g : MicroGo.Function}
    (h : t.elaborate names = .ok (g, names')) (hscopes : names.scopes = []) :
    names'.scopes = [] ∧ Legal [] t.marks ∧ t.Denotes g := by
  have hnames : ({ names with declared := [] } : Names) = Names.after [] := by
    rw [hscopes]
    rfl
  unfold Function.elaborate at h
  rw [hnames] at h
  obtain ⟨⟨⟨count, body⟩, after⟩, hscoped, hend⟩ := except_bind_eq_ok h
  obtain ⟨rfl, hdepth, hlegal, hcount, hbody⟩ := (traces_function t).ok _ _ hscoped
  cases hend
  refine ⟨List.length_eq_zero_iff.1 hdepth, hlegal, ?_⟩
  dsimp only at hcount
  rw [hcount]
  exact denotes_ofDeclarations t hbody

theorem function_eq_error {t : Function} {names : Names} {c : Complaint}
    (h : t.elaborate names = .error c) (hscopes : names.scopes = []) :
    (c.IsAboutVariable → ¬ Legal [] t.marks) ∧ (t.Proper → c.IsAboutVariable) := by
  have hnames : ({ names with declared := [] } : Names) = Names.after [] := by
    rw [hscopes]
    rfl
  unfold Function.elaborate at h
  rw [hnames] at h
  rcases except_bind_eq_error.1 h with h | ⟨r, -, hend⟩
  · exact (traces_function t).error c h
  · cases hend

/-! ## Programs -/

theorem functions_eq_ok {ts : List Function} {done gs : List MicroGo.Function}
    {names names' : Names} (h : functionsElaborate done ts names = .ok (gs, names'))
    (hscopes : names.scopes = []) :
    (∀ t ∈ ts, Legal [] t.marks) ∧
      ∃ new, gs = done ++ new ∧ List.Forall₂ Function.Denotes ts new := by
  induction ts generalizing done names with
  | nil =>
      cases h
      exact ⟨nofun, [], (List.append_nil _).symm, .nil⟩
  | cons t ts ih =>
      obtain ⟨g, mid, hg, hrest⟩ := bind_eq_ok h
      obtain ⟨hmid, hlegal, hdenotes⟩ := function_eq_ok hg hscopes
      split at hrest
      · cases hrest
      · obtain ⟨hlegals, new, rfl, hnew⟩ := ih hrest hmid
        refine ⟨?_, g :: new, by simp, .cons hdenotes hnew⟩
        intro t' ht'
        rcases List.mem_cons.1 ht' with rfl | ht'
        · exact hlegal
        · exact hlegals t' ht'

theorem functions_eq_error {ts : List Function} {done : List MicroGo.Function} {names : Names}
    {c : Complaint} (h : functionsElaborate done ts names = .error c)
    (hscopes : names.scopes = []) :
    (c.IsAboutVariable → ∃ t ∈ ts, ¬ Legal [] t.marks) ∧
      ((∀ t ∈ ts, t.Proper) →
        (done.map MicroGo.Function.name ++ ts.map Function.name).Nodup → c.IsAboutVariable) := by
  induction ts generalizing done names with
  | nil => cases h
  | cons t ts ih =>
      rcases except_bind_eq_error.1 h with h | ⟨⟨g, mid⟩, hg, hrest⟩
      · obtain ⟨hbroken, hother⟩ := function_eq_error h hscopes
        refine ⟨fun hc => ⟨t, List.mem_cons_self, hbroken hc⟩, fun hproper _ => ?_⟩
        exact hother (hproper t List.mem_cons_self)
      · obtain ⟨hmid, -, hdenotes⟩ := function_eq_ok hg hscopes
        dsimp only at hrest
        split at hrest
        next htaken =>
          cases hrest
          refine ⟨False.elim, fun _ hnodup => ?_⟩
          -- a name that is taken stands twice in the list of names
          obtain ⟨g', hg', hname⟩ := List.any_eq_true.1 htaken
          have htwice : t.name ∈ done.map MicroGo.Function.name := by
            rw [← hdenotes.name, ← of_decide_eq_true hname]
            exact List.mem_map_of_mem hg'
          exact absurd rfl ((List.nodup_append.1 hnodup).2.2 _ htwice _ List.mem_cons_self)
        next =>
          obtain ⟨hbroken, hother⟩ := ih hrest hmid
          refine ⟨fun hc => ?_, fun hproper hnodup => hother ?_ ?_⟩
          · obtain ⟨t', ht', hillegal⟩ := hbroken hc
            exact ⟨t', List.mem_cons_of_mem t ht', hillegal⟩
          · exact fun t' ht' => hproper t' (List.mem_cons_of_mem t ht')
          · rw [List.map_append, List.map_singleton, hdenotes.name, List.append_assoc]
            exact hnodup

theorem program_eq_ok {t : Program} {p : MicroGo.Program} (h : t.elaborate = .ok p) :
    (∀ f ∈ t.functions, Legal [] f.marks) ∧
      List.Forall₂ Function.Denotes t.functions p.functions := by
  obtain ⟨⟨gs, names⟩, hfunctions, hend⟩ := except_bind_eq_ok h
  cases hend
  obtain ⟨hlegal, new, rfl, hnew⟩ := functions_eq_ok hfunctions rfl
  exact ⟨hlegal, hnew⟩

theorem program_eq_error {t : Program} {c : Complaint} (h : t.elaborate = .error c) :
    (c.IsAboutVariable → ∃ f ∈ t.functions, ¬ Legal [] f.marks) ∧
      (t.Proper → c.IsAboutVariable) := by
  rcases except_bind_eq_error.1 h with h | ⟨r, -, hend⟩
  · obtain ⟨hbroken, hother⟩ := functions_eq_error h rfl
    exact ⟨hbroken, fun hproper => hother hproper.functions hproper.nodup⟩
  · cases hend

/-- **Names are resolved lexically.**  A program that was read is spelled by its tokens, and is what
every sentence stands for that they spell: each name stands for the variable of its last declaration
that is still open, and variables are numbered in the order of their declarations.

A sentence that keeps all other rules is refused for the name of a variable exactly when some use of
a name has no such declaration or some scope declares a name twice. -/
theorem parse_resolves_names (tokens : List Token) :
    (∀ p, (Program.parse tokens).result = .ok p →
      (∃ t, Spells tokens t) ∧
        ∀ t, Spells tokens t → List.Forall₂ Function.Denotes t.functions p.functions) ∧
    ∀ t, Spells tokens t → t.Proper →
      ((∃ failure, (Program.parse tokens).result = .error failure ∧
          failure.complaint.IsAboutVariable) ↔
        ∃ f ∈ t.functions, LacksDeclaration f.marks ∨ DeclaresTwice f.marks) := by
  simp only [← not_legal_iff]
  constructor
  · intro p hp
    refine ⟨exists_spells hp, fun t ht => ?_⟩
    have hparse := parse_of_spells ht
    cases hr : t.elaborate with
    | ok q =>
        rw [hr, hp] at hparse
        rw [Except.ok.inj hparse]
        exact (program_eq_ok hr).2
    | error c =>
        rw [hr, hp] at hparse
        obtain ⟨pos, hpos⟩ := hparse
        cases hpos
  · intro t ht hproper
    have hparse := parse_of_spells ht
    cases hr : t.elaborate with
    | ok q =>
        rw [hr] at hparse
        constructor
        · rintro ⟨failure, hfailure, -⟩
          rw [hparse] at hfailure
          cases hfailure
        · rintro ⟨f, hf, hillegal⟩
          exact absurd ((program_eq_ok hr).1 f hf) hillegal
    | error c =>
        rw [hr] at hparse
        obtain ⟨pos, hpos⟩ := hparse
        obtain ⟨hbroken, hother⟩ := program_eq_error hr
        have habout := hother hproper
        exact ⟨fun _ => hbroken habout, fun _ => ⟨⟨c, pos⟩, hpos, habout⟩⟩

/-- A block hides the parameter of its function behind a variable whose first value is that
parameter; and a body may not do so, since it has one scope with the parameters. -/
theorem parse_resolves_names_shadowing :
    (∃ tokens p t,
      (tokensOf "func f(x int) \x7b if x \x7b var x = x; g(x) \x7d; return x \x7d\n").result =
        .ok tokens ∧
      (Program.parse tokens).result = .ok p ∧ Spells tokens t ∧
      p.functions.map MicroGo.Function.body =
        [[.branch none (.var 0) [.assign 1 (.var 0), .expr (.call "g" [.var 1])] none,
          .ret (.var 0)]] ∧
      List.Forall₂ Function.Denotes t.functions p.functions) ∧
    ∃ tokens failure, (tokensOf "func f(x int) \x7b var x int \x7d\n").result = .ok tokens ∧
      (Program.parse tokens).result = .error failure ∧ failure.complaint.IsAboutVariable := by
  constructor
  · have hread : ((tokensOf
        "func f(x int) \x7b if x \x7b var x = x; g(x) \x7d; return x \x7d\n").result.toOption.bind
          fun tokens => (Program.parse tokens).result.toOption).map
            (fun p => p.functions.map MicroGo.Function.body) =
        some [[.branch none (.var 0) [.assign 1 (.var 0), .expr (.call "g" [.var 1])] none,
          .ret (.var 0)]] := by
      decide +kernel
    obtain ⟨p, hp, hbody⟩ := Option.map_eq_some_iff.1 hread
    obtain ⟨tokens, htokens, hparse⟩ := Option.bind_eq_some_iff.1 hp
    obtain ⟨⟨t, ht⟩, hall⟩ := (parse_resolves_names tokens).1 p (eq_ok_of_toOption hparse)
    exact ⟨tokens, p, t, eq_ok_of_toOption htokens, eq_ok_of_toOption hparse, ht, hbody, hall t ht⟩
  · have hspells : (tokensOf "func f(x int) \x7b var x int \x7d\n").result.toOption.map lexemesOf =
        some (functionLexemes [⟨"f", .last "x", false, .last (.declare (.typed "x" none))⟩]) := by
      decide +kernel
    obtain ⟨tokens, htokens, hlexemes⟩ := Option.map_eq_some_iff.1 hspells
    have hrefused := ((parse_resolves_names tokens).2
      ⟨⟨"f", .last "x", false, .last (.declare (.typed "x" none))⟩, []⟩ hlexemes ?_).2 ?_
    · obtain ⟨failure, hfailure, habout⟩ := hrefused
      exact ⟨tokens, failure, eq_ok_of_toOption htokens, hfailure, habout⟩
    · refine ⟨fun f hf => ?_, List.nodup_singleton _⟩
      obtain rfl := List.mem_singleton.1 hf
      exact ⟨by decide, by simp [Body.Proper, Statement.Proper, Local.Proper, OptProper]⟩
    · refine ⟨_, List.mem_cons_self, .inr ?_⟩
      exact ⟨[.enter, .declare "x"], "x", [.leave], rfl, [.enter], [], rfl, rfl⟩

end Grammar
end MicroGo
