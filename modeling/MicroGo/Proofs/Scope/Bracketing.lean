import Mathlib.Data.List.Basic
import MicroGo.Compile
import MicroGo.Proofs.Grammar.Advance
import MicroGo.Proofs.Grammar.Agreement

/-!
# Scopes are closed in the reverse order

A scope that is opened while a program is read is closed again, whatever comes of the reading: a
complaint may be made at any depth, and leaves all scopes that are open there on its way out.  The
log tells about it, since both ends of a scope are recorded with the number of scopes that are open.

## Brackets in a log

`Bracketed d` says that the events of a log open and close scopes like brackets, where `d` scopes
are open around them.  In such a log each opening has exactly one closing behind it with the same
number and with brackets in between, and each closing has an opening (`Bracketed.entered`,
`Bracketed.left`).

## Open scopes

A parser leaves the scopes open that it finds, and only the innermost one may have more entries
afterwards (`Scopes.Keeps`).  The events it adds to the log are brackets at that depth.  Both hold
of all parsers, of those that fail as well as of the others, because they hold of the operations
(`Built.keepsScopes`).

A name is declared only where a scope is open.  Otherwise the declaration fails and with it the
reading as a whole, with a complaint that is made for no other reason (`Complaint.LacksScope`); and
this complaint is never heard.
-/

namespace MicroGo

/-! ## Brackets -/

namespace Event

/-- The number of open scopes that is recorded at one end of a scope. -/
def depth? : Event → Option Nat
  | enteredScope depth => some depth
  | leftScope depth => some depth
  | _ => none

/-- A scope is opened. -/
def isEntered : Event → Bool
  | enteredScope _ => true
  | _ => false

/-- A scope is closed. -/
def isLeft : Event → Bool
  | leftScope _ => true
  | _ => false

theorem isEntered_eq_false {e : Event} (h : e.depth? = none) : e.isEntered = false := by
  cases e with
  | enteredScope depth => cases h
  | _ => rfl

theorem isLeft_eq_false {e : Event} (h : e.depth? = none) : e.isLeft = false := by
  cases e with
  | leftScope depth => cases h
  | _ => rfl

end Event

/-- **The number of scopes that are open behind the events**: that were opened and not closed. -/
def openScopes (events : List Event) : Nat :=
  events.countP Event.isEntered - events.countP Event.isLeft

/-- **The events are brackets** where `d` scopes are open around them. -/
inductive Bracketed : Nat → List Event → Prop where
  | nil {d : Nat} : Bracketed d []
  /-- An event that is not about scopes. -/
  | other {d : Nat} {e : Event} {rest : List Event} : e.depth? = none → Bracketed d rest →
      Bracketed d (e :: rest)
  /-- A scope with its two ends. -/
  | scope {d : Nat} {inner rest : List Event} : Bracketed (d + 1) inner → Bracketed d rest →
      Bracketed d (.enteredScope (d + 1) :: (inner ++ .leftScope (d + 1) :: rest))

theorem countP_isEntered_scope (k : Nat) (inner rest : List Event) :
    (.enteredScope k :: (inner ++ .leftScope k :: rest)).countP Event.isEntered =
      inner.countP Event.isEntered + rest.countP Event.isEntered + 1 := by
  rw [List.countP_cons_of_pos rfl, List.countP_append, List.countP_cons_of_neg Bool.false_ne_true]

theorem countP_isLeft_scope (k : Nat) (inner rest : List Event) :
    (.enteredScope k :: (inner ++ .leftScope k :: rest)).countP Event.isLeft =
      inner.countP Event.isLeft + rest.countP Event.isLeft + 1 := by
  rw [List.countP_cons_of_neg Bool.false_ne_true, List.countP_append, List.countP_cons_of_pos rfl,
    Nat.add_assoc]

/-- The places of an entry in a list that has an entry in front and another one within. -/
theorem cons_append_cons_eq {α : Type} {a b x : α} {inner rest before after : List α}
    (h : a :: (inner ++ b :: rest) = before ++ x :: after) :
    (before = [] ∧ a = x ∧ after = inner ++ b :: rest) ∨
      (∃ mid mid', before = a :: mid ∧ inner = mid ++ x :: mid' ∧ after = mid' ++ b :: rest) ∨
      (before = a :: inner ∧ b = x ∧ after = rest) ∨
      ∃ mid, before = a :: (inner ++ b :: mid) ∧ rest = mid ++ x :: after := by
  rcases List.cons_eq_append_iff.1 h with ⟨rfl, hx⟩ | ⟨mid, rfl, hmid⟩
  · obtain ⟨rfl, rfl⟩ := List.cons_eq_cons.1 hx
    exact .inl ⟨rfl, rfl, rfl⟩
  refine .inr ?_
  rcases List.append_eq_append_iff.1 hmid with ⟨more, rfl, hmore⟩ | ⟨more, rfl, hmore⟩
  · -- the entry is the one within or stands behind it
    rcases List.cons_eq_append_iff.1 hmore with ⟨rfl, hx⟩ | ⟨mid', rfl, rfl⟩
    · obtain ⟨rfl, rfl⟩ := List.cons_eq_cons.1 hx
      exact .inr (.inl ⟨by rw [List.append_nil], rfl, rfl⟩)
    · exact .inr (.inr ⟨mid', rfl, rfl⟩)
  · rcases List.cons_eq_append_iff.1 hmore with ⟨rfl, hx⟩ | ⟨mid', rfl, rfl⟩
    · obtain ⟨rfl, rfl⟩ := List.cons_eq_cons.1 hx
      exact .inr (.inl ⟨by rw [List.append_nil], rfl, rfl⟩)
    · exact .inl ⟨mid, mid', rfl, rfl, rfl⟩

namespace Bracketed

variable {d k : Nat} {es es' before after : List Event}

theorem append (h : Bracketed d es) (h' : Bracketed d es') : Bracketed d (es ++ es') := by
  induction h with
  | nil => exact h'
  | other he _ ih => exact .other he (ih h')
  | scope hinner _ _ ih =>
    rw [List.cons_append, List.append_assoc, List.cons_append]
    exact .scope hinner (ih h')

/-- As many scopes are closed as were opened. -/
theorem countP_eq (h : Bracketed d es) : es.countP Event.isEntered = es.countP Event.isLeft := by
  induction h with
  | nil => rfl
  | other he _ ih => simp [Event.isEntered_eq_false he, Event.isLeft_eq_false he, ih]
  | scope _ _ ihinner ih => rw [countP_isEntered_scope, countP_isLeft_scope, ihinner, ih]

/-- The scopes among brackets are deeper than those around them. -/
theorem lt_of_mem {e : Event} (h : Bracketed d es) (he : e ∈ es) (hk : e.depth? = some k) :
    d < k := by
  induction h with
  | nil => cases he
  | other hother _ ih =>
    rcases List.mem_cons.1 he with rfl | he
    · rw [hother] at hk
      cases hk
    · exact ih he
  | scope _ _ ihinner ih =>
    rcases List.mem_cons.1 he with rfl | he
    · cases hk
      exact Nat.lt_succ_self _
    rcases List.mem_append.1 he with he | he
    · exact Nat.lt_of_succ_lt (ihinner he)
    rcases List.mem_cons.1 he with rfl | he
    · cases hk
      exact Nat.lt_succ_self _
    · exact ih he

/-- **An opening has its closing behind it**, and its number is one more than that of the scopes
that are open there. -/
theorem entered (h : Bracketed d es) (hes : es = before ++ .enteredScope k :: after) :
    k + before.countP Event.isLeft = d + before.countP Event.isEntered + 1 ∧
      ∃ inner rest, after = inner ++ .leftScope k :: rest ∧ Bracketed k inner := by
  induction h generalizing before after with
  | nil => simp at hes
  | @other d e rest hother _ ih =>
    rcases List.cons_eq_append_iff.1 hes with ⟨rfl, he⟩ | ⟨before', rfl, hrest⟩
    · obtain ⟨rfl, -⟩ := List.cons_eq_cons.1 he
      cases hother
    · obtain ⟨hcount, hmatch⟩ := ih hrest
      have hentered := Event.isEntered_eq_false hother
      have hleft := Event.isLeft_eq_false hother
      exact ⟨by simpa [hentered, hleft] using hcount, hmatch⟩
  | @scope d inner rest hinner _ ihinner ih =>
    rcases cons_append_cons_eq hes with ⟨rfl, he, rfl⟩ | ⟨mid, mid', rfl, hsplit, rfl⟩ |
      ⟨-, he, -⟩ | ⟨mid, rfl, hsplit⟩
    · cases he
      exact ⟨by simp, inner, rest, rfl, hinner⟩
    · -- inside of the first scope, with one scope more around
      obtain ⟨hcount, more, rest', rfl, hmore⟩ := ihinner hsplit
      refine ⟨?_, more, rest' ++ .leftScope (d + 1) :: rest, by simp, hmore⟩
      rw [List.countP_cons_of_neg Bool.false_ne_true, List.countP_cons_of_pos rfl]
      omega
    · cases he
    · -- behind the first scope, which does not count
      obtain ⟨hcount, hmatch⟩ := ih hsplit
      have hbalance := hinner.countP_eq
      refine ⟨?_, hmatch⟩
      rw [countP_isEntered_scope, countP_isLeft_scope]
      omega

/-- **A closing has its opening in front of it.** -/
theorem left (h : Bracketed d es) (hes : es = before ++ .leftScope k :: after) :
    ∃ outer inner, before = outer ++ .enteredScope k :: inner ∧ Bracketed k inner := by
  induction h generalizing before after with
  | nil => simp at hes
  | @other d e rest hother _ ih =>
    rcases List.cons_eq_append_iff.1 hes with ⟨rfl, he⟩ | ⟨before', rfl, hrest⟩
    · obtain ⟨rfl, -⟩ := List.cons_eq_cons.1 he
      cases hother
    · obtain ⟨outer, inner, rfl, hinner⟩ := ih hrest
      exact ⟨e :: outer, inner, rfl, hinner⟩
  | @scope d inner rest hinner _ ihinner ih =>
    rcases cons_append_cons_eq hes with ⟨-, he, -⟩ | ⟨mid, mid', rfl, hsplit, -⟩ |
      ⟨rfl, he, -⟩ | ⟨mid, rfl, hsplit⟩
    · cases he
    · obtain ⟨outer, more, rfl, hmore⟩ := ihinner hsplit
      exact ⟨.enteredScope (d + 1) :: outer, more, rfl, hmore⟩
    · cases he
      exact ⟨[], inner, rfl, hinner⟩
    · obtain ⟨outer, more, rfl, hmore⟩ := ih hsplit
      exact ⟨.enteredScope (d + 1) :: (inner ++ .leftScope (d + 1) :: outer), more, by simp, hmore⟩

/-- Two closings of one opening are the same. -/
theorem inner_unique {inner inner' rest rest' : List Event} (h : Bracketed k inner)
    (h' : Bracketed k inner')
    (heq : inner ++ .leftScope k :: rest = inner' ++ .leftScope k :: rest') : inner = inner' := by
  have hnot {es : List Event} (hes : Bracketed k es) : .leftScope k ∉ es :=
    fun hmem => Nat.lt_irrefl k (hes.lt_of_mem hmem rfl)
  rcases List.append_eq_append_iff.1 heq with ⟨more, rfl, hmore⟩ | ⟨more, rfl, hmore⟩
  · rcases List.cons_eq_append_iff.1 hmore with ⟨rfl, -⟩ | ⟨_, rfl, -⟩
    · rw [List.append_nil]
    · exact absurd (List.mem_append_right _ List.mem_cons_self) (hnot h')
  · rcases List.cons_eq_append_iff.1 hmore with ⟨rfl, -⟩ | ⟨_, rfl, -⟩
    · rw [List.append_nil]
    · exact absurd (List.mem_append_right _ List.mem_cons_self) (hnot h)

end Bracketed

/-! ## Open scopes -/

/-- **The scopes `after` are those of `before`**, but for entries that the innermost one may have in
front of its earlier ones, which stay in force. -/
structure Scopes.Keeps (before after : Scopes) : Prop where
  depth : after.length = before.length
  outer : after.tail = before.tail
  earlier : before.headD [] <:+ after.headD []
  inForce : ∀ name id, (before.headD []).lookup name = some id →
    (after.headD []).lookup name = some id

theorem Scopes.Keeps.refl (scopes : Scopes) : scopes.Keeps scopes :=
  ⟨rfl, rfl, List.suffix_refl _, fun _ _ h => h⟩

theorem Scopes.Keeps.trans {before mid after : Scopes} (h : before.Keeps mid)
    (h' : mid.Keeps after) : before.Keeps after where
  depth := h'.depth.trans h.depth
  outer := h'.outer.trans h.outer
  earlier := h.earlier.trans h'.earlier
  inForce := fun name id hname => h'.inForce name id (h.inForce name id hname)

/-- A name that a scope does not know comes in front of its entries. -/
theorem Scopes.keeps_declare {scope : Scope} {outer : Scopes} {name : String} (id : VarId)
    (h : ¬ scope.knows name) :
    Scopes.Keeps (scope :: outer) (((name, id) :: scope) :: outer) where
  depth := rfl
  outer := rfl
  earlier := List.suffix_cons _ _
  inForce := by
    intro name' id' hfound
    have hne : name' ≠ name := by
      rintro rfl
      exact h (Option.isSome_iff_exists.2 ⟨id', hfound⟩)
    show List.lookup name' ((name, id) :: scope) = some id'
    rw [List.lookup_cons, beq_false_of_ne hne]
    exact hfound

namespace Parser

variable {α β σ : Type} {s t u : State}

/-- **The state `t` has the scopes of `s` open**, and what has been logged in between are brackets
among them. -/
structure State.KeepsScopes (s t : State) : Prop where
  scopes : s.scopes.Keeps t.scopes
  log : ∃ events, t.log.toList = s.log.toList ++ events ∧ Bracketed s.scopes.length events

namespace State.KeepsScopes

theorem refl (s : State) : s.KeepsScopes s :=
  ⟨.refl _, [], (List.append_nil _).symm, .nil⟩

theorem trans (h : s.KeepsScopes t) (h' : t.KeepsScopes u) : s.KeepsScopes u := by
  obtain ⟨events, hlog, hevents⟩ := h.log
  obtain ⟨events', hlog', hevents'⟩ := h'.log
  rw [h.scopes.depth] at hevents'
  refine ⟨h.scopes.trans h'.scopes, events ++ events', ?_, hevents.append hevents'⟩
  rw [hlog', hlog, List.append_assoc]

/-- Behind a scope of its own everything is as before. -/
theorem leave (h : s.enter.KeepsScopes t) : s.KeepsScopes t.leave := by
  obtain ⟨events, hlog, hevents⟩ := h.log
  have hscopes : t.leave.scopes = s.scopes := h.scopes.outer
  have hdepth : t.scopes.length = s.scopes.length + 1 := h.scopes.depth
  refine ⟨?_, .enteredScope (s.scopes.length + 1) ::
    (events ++ [.leftScope (s.scopes.length + 1)]), ?_, .scope hevents .nil⟩
  · rw [hscopes]
    exact .refl _
  · show (t.log.push (.leftScope t.scopes.length)).toList = _
    rw [Array.toList_push, hlog, hdepth]
    show (s.log.push _).toList ++ _ ++ _ = _
    rw [Array.toList_push]
    simp

end State.KeepsScopes

/-! ## All parsers -/

/-- Whatever comes of a parser, the scopes that it finds open are open in the end. -/
theorem Built.keepsScopes {g : Position → Position} {p q : Parser α} (h : Built g p q)
    (s : State) : s.KeepsScopes (lastState (p s)) := by
  induction h generalizing s with
  | pure a => exact .refl s
  | bind _ _ ih ihnext => exact rel_lastState_bind (R := State.KeepsScopes) .trans ih ihnext s
  | current _ ih => exact ih s.current s
  | following _ ih => exact ih s.following s
  | inScope _ ih =>
    rw [lastState_inScope]
    exact (ih s.enter).leave
  | budgeted _ ih => exact ih _ s
  | take? f =>
    unfold Parser.take?
    cases s.ahead with
    | nil => exact .refl s
    | cons t rest =>
      dsimp only
      cases f t.toLexeme with
      | none => exact .refl s
      | some a => exact ⟨.refl _, [], (List.append_nil _).symm, .nil⟩
  | declare name type =>
    unfold Parser.declare
    cases hscopes : s.scopes with
    | nil => exact .refl s
    | cons scope outer =>
      dsimp only
      split
      · exact .refl s
      · next hknows =>
        refine ⟨?_, [], (List.append_nil _).symm, .nil⟩
        rw [hscopes]
        exact Scopes.keeps_declare _ hknows
  | startFunction => exact ⟨.refl _, [], (List.append_nil _).symm, .nil⟩
  | finishFunction name count body =>
    exact ⟨.refl _, [_], Array.toList_push, .other rfl .nil⟩
  -- the other operations leave the state alone
  | isAt | atEnd | reject | failExpecting | exhausted | resolve => exact .refl s

/-- Where no scope is open, none is open in the end. -/
theorem scopes_eq_nil {g : Position → Position} {p q : Parser α} (h : Built g p q)
    (hs : s.scopes = []) : (lastState (p s)).scopes = [] := by
  have hdepth := (h.keepsScopes s).scopes.depth
  rw [hs] at hdepth
  exact List.length_eq_zero_iff.1 hdepth

/-! ## Declarations without a scope

A parser can do without an open scope if it declares nothing, or only within a scope of its own.
Those of functions are of this kind, and what they read in their scope finds that scope open.
-/

/-- A failure of the one or of the other. -/
theorem bind_eq_error {p : Parser α} {k : α → Parser β} {e : Failure}
    (h : (p >>= k) s = .error e t) :
    p s = .error e t ∨ ∃ a u, p s = .ok a u ∧ k a u = .error e t := by
  cases hp : p s with
  | ok a u =>
    rw [bind_of_ok hp] at h
    exact .inr ⟨a, u, rfl, h⟩
  | error e' u =>
    rw [bind_of_error hp] at h
    cases h
    exact .inl rfl

theorem inScope_eq_error {p : Parser α} {e : Failure} (h : inScope p s = .error e t) :
    ∃ u, p s.enter = .error e u := by
  unfold inScope at h
  cases hp : p s.enter with
  | ok a u =>
    rw [hp] at h
    cases h
  | error e' u =>
    rw [hp] at h
    cases h
    exact ⟨u, rfl⟩

/-- The parser lacks no scope, also where none is open. -/
def NeedsNoScope (p : Parser α) : Prop :=
  ∀ ⦃s t : State⦄ ⦃e : Failure⦄, p s = .error e t → ¬ e.complaint.LacksScope

theorem needsNoScope_pure (a : α) : NeedsNoScope (pure a : Parser α) := by
  rintro s t e ⟨⟩

theorem needsNoScope_current : NeedsNoScope current := by
  rintro s t e ⟨⟩

theorem needsNoScope_atEnd : NeedsNoScope atEnd := by
  rintro s t e ⟨⟩

theorem needsNoScope_reject (complaint : Complaint) (token : Token) (h : ¬ complaint.LacksScope) :
    NeedsNoScope (reject complaint token : Parser α) := by
  rintro s t e ⟨⟩
  exact h

theorem needsNoScope_failExpecting (wanted : Wanted) :
    NeedsNoScope (failExpecting wanted : Parser α) := by
  rintro s t e ⟨⟩
  exact not_false

theorem needsNoScope_exhausted : NeedsNoScope (exhausted : Parser α) := by
  rintro s t e ⟨⟩
  exact not_false

theorem needsNoScope_take? (f : Lexeme → Option α) : NeedsNoScope (take? f) := by
  intro s t e hrun
  rw [take?_eq] at hrun
  split at hrun
  · cases hrun
  · cases hrun

/-- **Where a scope is open, no parser lacks one.** -/
theorem Built.not_lacksScope {g : Position → Position} {p q : Parser α} (h : Built g p q)
    {e : Failure} (hs : s.scopes ≠ []) (hrun : p s = .error e t) : ¬ e.complaint.LacksScope := by
  induction h generalizing s t with
  | bind hp _ ih ihnext =>
    rcases bind_eq_error hrun with hrun | ⟨a, u, hok, hrun⟩
    · exact ih hs hrun
    · -- the scope that was open at the beginning still is
      have hdepth := (hp.keepsScopes s).scopes.depth
      rw [hok] at hdepth
      refine ihnext a (fun hnil => hs ?_) hrun
      have hzero : u.scopes.length = 0 := by rw [hnil, List.length_nil]
      exact List.length_eq_zero_iff.1 (hdepth.symm.trans hzero)
  | current _ ih => exact ih s.current hs hrun
  | following _ ih => exact ih s.following hs hrun
  | inScope _ ih =>
    obtain ⟨u, hp⟩ := inScope_eq_error hrun
    exact ih (List.cons_ne_nil _ _) hp
  | budgeted _ ih => exact ih _ hs hrun
  | reject complaint token hcomplaint => exact needsNoScope_reject complaint token hcomplaint hrun
  | failExpecting wanted => exact needsNoScope_failExpecting wanted hrun
  | exhausted => exact needsNoScope_exhausted hrun
  | take? f => exact needsNoScope_take? f hrun
  | declare name type =>
    unfold Parser.declare at hrun
    split at hrun
    · next hnil => exact absurd hnil hs
    · split at hrun
      · cases hrun
        exact not_false
      · cases hrun
  -- the other operations do not fail
  | pure | isAt | atEnd | resolve | startFunction | finishFunction => cases hrun

/-! ### Functions -/

/-- A scope of its own is enough. -/
theorem Built.needsNoScope_inScope {p : Parser α} (h : Built id p p) :
    NeedsNoScope (Parser.inScope p) := by
  intro s t e hrun
  obtain ⟨u, hp⟩ := inScope_eq_error hrun
  exact h.not_lacksScope (List.cons_ne_nil _ _) hp

theorem NeedsNoScope.bind {p : Parser α} {k : α → Parser β} (h : NeedsNoScope p)
    (hnext : ∀ a, NeedsNoScope (k a)) : NeedsNoScope (p >>= k) := by
  intro s t e hrun
  rcases bind_eq_error hrun with hrun | ⟨a, u, -, hrun⟩
  · exact h hrun
  · exact hnext a hrun

theorem NeedsNoScope.ite {c : Prop} [Decidable c] {p q : Parser α} (h : NeedsNoScope p)
    (h' : NeedsNoScope q) : NeedsNoScope (if c then p else q) := by
  split
  · exact h
  · exact h'

theorem needsNoScope_expect (text : String) : NeedsNoScope (expect text) :=
  ((needsNoScope_take? _).bind fun _ => needsNoScope_pure _).bind fun _ =>
    .ite (needsNoScope_pure _) (needsNoScope_failExpecting _)

theorem needsNoScope_identifier : NeedsNoScope identifier := by
  refine needsNoScope_current.bind fun t => (needsNoScope_take? _).bind fun taken => ?_
  cases taken with
  | none => exact needsNoScope_failExpecting _
  | some _ => exact needsNoScope_pure t

/-- **A function opens a scope for what it declares.** -/
theorem needsNoScope_function : NeedsNoScope function := by
  have hstart : NeedsNoScope startFunction := by rintro s t e ⟨⟩
  have hfinish (name : String) (count : Nat) (body : List Stmt) :
      NeedsNoScope (finishFunction name count body) := by rintro s t e ⟨⟩
  have hscope : NeedsNoScope signatureAndBody := by
    refine Built.needsNoScope_inScope ((built_loop built_parameterStep 0).bind fun _ =>
      (Built.isAt "\x7b").bind fun _ => .ite ?_ ?_)
    · exact (built_body built_stmt).bind fun _ => .pure _
    · exact built_typeName.bind fun _ => (built_body built_stmt).bind fun _ => .pure _
  exact (needsNoScope_expect "func").bind fun _ => needsNoScope_identifier.bind fun name =>
    (needsNoScope_expect "(").bind fun _ => hstart.bind fun _ => hscope.bind fun r =>
      hfinish name.text r.1 r.2

theorem needsNoScope_functionStep (functions : List Function) :
    NeedsNoScope (functionStep functions) := by
  have hfollowing : NeedsNoScope following := by rintro s t e ⟨⟩
  exact needsNoScope_atEnd.bind fun _ => .ite (needsNoScope_pure _) <|
    hfollowing.bind fun name => needsNoScope_function.bind fun _ =>
      .ite (needsNoScope_reject _ name not_false) <|
        (needsNoScope_expect ";").bind fun _ => needsNoScope_pure _

theorem needsNoScope_iterate {step : σ → Parser (σ ⊕ β)} (h : ∀ x, NeedsNoScope (step x))
    (budget : Nat) (x : σ) : NeedsNoScope (iterate step budget x) := by
  induction budget generalizing x with
  | zero => exact needsNoScope_exhausted
  | succ budget ih =>
    refine (h x).bind fun next => ?_
    cases next with
    | inl y => exact ih y
    | inr b => exact needsNoScope_pure b

theorem needsNoScope_program : NeedsNoScope program := by
  have hfunctions : NeedsNoScope (loop functionStep []) :=
    fun _ _ _ hrun => needsNoScope_iterate needsNoScope_functionStep _ [] hrun
  exact needsNoScope_atEnd.bind fun _ =>
    .ite (needsNoScope_current.bind fun t => needsNoScope_reject _ t not_false)
      (hfunctions.bind fun _ => needsNoScope_pure _)

/-! ### Between functions -/

/-- **A repetition comes to a round**: with the value `y`, in the state `t`. -/
inductive ComesTo (step : σ → Parser (σ ⊕ β)) (x : σ) (s : State) : σ → State → Prop where
  | first : ComesTo step x s x s
  | next {y z : σ} {t u : State} : ComesTo step x s y t → step y t = .ok (.inl z) u →
      ComesTo step x s z u

/-- Between two functions no scope is open. -/
theorem scopes_of_comesTo {functions functions' : List Function} (hs : s.scopes = [])
    (h : ComesTo functionStep functions s functions' t) : t.scopes = [] := by
  induction h with
  | first => exact hs
  | @next functions _ _ _ _ hstep ih =>
    have hscopes := scopes_eq_nil (built_functionStep (g := id) functions) ih
    rwa [hstep] at hscopes

/-! ## Logs -/

/-- What is logged while a list of tokens is read are brackets, with no scope around them. -/
theorem bracketed_log (source : String) (tokens : List Token) :
    Bracketed 0 (programOf source tokens).log := by
  obtain ⟨events, hlog, hevents⟩ := ((built_program (g := id)).keepsScopes (.ofTokens tokens)).log
  have hread : (programOf source tokens).log =
      (lastState (program (.ofTokens tokens))).log.toList := by
    show (Traced.ofResult State.log (program (.ofTokens tokens))).log = _
    cases program (.ofTokens tokens) with
    | ok p t => rfl
    | error e t => rfl
  rw [hread, hlog]
  exact hevents

/-- **Scopes are opened and closed like brackets, whatever comes of the reading.**  In the log, the
number of an opening is one more than that of the scopes then open; it has exactly one closing with
its number behind it, with brackets of greater numbers in between; and each closing has an opening.
No scope is open in front of a function, behind it, and at the end.  Any parser leaves the scopes as
it finds them, also when it fails, with their entries in force, and logs brackets at their depth.
And no name is declared where no scope is open: the reading would end with the complaint about
it. -/
theorem programOf_brackets_scopes (source : String) (tokens : List Token) :
    Bracketed 0 (programOf source tokens).log ∧
      (∀ before d after, (programOf source tokens).log = before ++ .enteredScope d :: after →
        d = openScopes before + 1 ∧
          ∃! inner, ∃ rest, after = inner ++ .leftScope d :: rest ∧ Bracketed d inner) ∧
      (∀ before d after, (programOf source tokens).log = before ++ .leftScope d :: after →
        ∃ outer inner, before = outer ++ .enteredScope d :: inner ∧ Bracketed d inner) ∧
      (∀ functions s, ComesTo functionStep [] (.ofTokens tokens) functions s →
        s.scopes = [] ∧ (lastState (function s)).scopes = []) ∧
      (lastState (program (.ofTokens tokens))).scopes = [] ∧
      (∀ (α : Type) (g : Position → Position) (p q : Parser α), Built g p q → ∀ s : State,
        s.KeepsScopes (lastState (p s)) ∧
          (s.scopes ≠ [] → ∀ e t, p s = .error e t → ¬ e.complaint.LacksScope)) ∧
      (∀ (name : Token) (type : Ty) (s : State), s.scopes = [] →
        declare name type s = .error ⟨.noOpenScope name.text, name.pos⟩ s) ∧
      ∀ name pos, (Program.parse tokens).result ≠ .error ⟨.noOpenScope name, pos⟩ := by
  have hlog := bracketed_log source tokens
  refine ⟨hlog, ?_, fun before d after hsplit => hlog.left hsplit, ?_, ?_, ?_, ?_, ?_⟩
  · intro before d after hsplit
    obtain ⟨hcount, inner, rest, hrest, hinner⟩ := hlog.entered hsplit
    have hpos : 0 < d := by
      refine hlog.lt_of_mem (e := .enteredScope d) ?_ rfl
      rw [hsplit]
      exact List.mem_append_right _ List.mem_cons_self
    refine ⟨?_, inner, ⟨rest, hrest, hinner⟩, ?_⟩
    · unfold openScopes
      omega
    · rintro inner' ⟨rest', hrest', hinner'⟩
      exact hinner'.inner_unique hinner (hrest'.symm.trans hrest)
  · intro functions s hs
    have hscopes := scopes_of_comesTo rfl hs
    exact ⟨hscopes, scopes_eq_nil (built_function (g := id)) hscopes⟩
  · exact scopes_eq_nil (built_program (g := id)) rfl
  · exact fun α g p q h s => ⟨h.keepsScopes s, fun hs e t hrun => h.not_lacksScope hs hrun⟩
  · intro name type s hs
    rw [declare, hs]
  · intro name pos hresult
    unfold Program.parse at hresult
    cases hrun : program (.ofTokens tokens) with
    | ok p t =>
      rw [hrun] at hresult
      cases hresult
    | error e t =>
      rw [hrun] at hresult
      cases hresult
      exact needsNoScope_program hrun trivial

/-- A function and a loop in it break off in the body of the loop, where three scopes are open. -/
theorem programOf_brackets_scopes_loop :
    let tokens : List Token := [⟨.reserved "func", ⟨1, 1⟩⟩, ⟨⟨.ident, "f"⟩, ⟨1, 6⟩⟩,
      ⟨.reserved "(", ⟨1, 7⟩⟩, ⟨.reserved ")", ⟨1, 8⟩⟩, ⟨.reserved "\x7b", ⟨1, 10⟩⟩,
      ⟨.reserved "for", ⟨1, 12⟩⟩, ⟨.reserved "\x7b", ⟨1, 16⟩⟩]
    let after : List Event := [.enteredScope 3, .leftScope 3, .leftScope 2, .leftScope 1]
    (programOf "" tokens).log = [.enteredScope 1] ++ .enteredScope 2 :: after ∧
      2 = openScopes [.enteredScope 1] + 1 ∧
      ∃! inner, ∃ rest, after = inner ++ .leftScope 2 :: rest ∧ Bracketed 2 inner := by
  intro tokens after
  have hlog : (programOf "" tokens).log = [.enteredScope 1] ++ .enteredScope 2 :: after := rfl
  exact ⟨hlog, (programOf_brackets_scopes "" tokens).2.1 _ _ _ hlog⟩

end Parser
end MicroGo
