import Mathlib.Tactic.Common
import MicroGo.Proofs.Compile.Places
import MicroGo.Proofs.Grammar.Agreement

/-!
# Reading ends at the first end of the input

A parser is given the tokens in front of the first end of the input, and its budgets are measured by
their number.  Neither is a matter of course.  A reader that keeps the whole list and moves through
it token by token meets the end of the input as one token among others, with more tokens behind it,
and has no budget at all.  This module shows that such a reader comes to the same.

## The whole list

`WholeList.program` is that reader.  Its tokens ahead are all that remain of the list; it has
reached the end when the token ahead is an end of the input, and past the last token it sees an end
of the input that is not in the list (`listEnd`).  Everything else is done by the same parsers,
which are now run in states that hold more.

It is not clear from one look that these parsers stop where they should.  Taking a name or a sign
does not ask whether the end is reached, and the text of an end of the input may be anything; in two
places the token *after* the one ahead is looked at, which would be one past the end if the end were
ahead.

## Two runs

Both readers are followed at once.  All along, the tokens ahead of the first one are those ahead of
the second one and some more, which begin with the end that the second one sees (`Extends`).  The
law `EndsAlike` says that two parsers keep this up, and that they end in a value or in a complaint
about tokens, never because a budget is used up.  For the budgets it also says how many tokens a
parser takes at least, so that the tokens ahead become fewer from round to round and from level to
level.  There is one lemma for each parser, whose proof follows the parser.
-/

namespace MicroGo

/-- The complaint is about tokens: neither about a character nor about the budget. -/
def Complaint.IsAboutTokens : Complaint → Prop
  | foreignCharacter _ => False
  | budgetExhausted => False
  | _ => True

/-! ## Reading a whole list -/

namespace Parser

variable {α β σ : Type}

namespace WholeList

/-- The state before anything is read, with all tokens of the list ahead. -/
def start (tokens : List Token) : State where
  ahead := tokens
  stop := listEnd tokens

/-- Whether the token ahead is an end of the input. -/
def atEnd : Parser Bool :=
  fun s => .ok (s.current.kind = .eof) s

/-- One function and the semicolon after it, or the end of the program. -/
def functionStep (functions : List Function) : Parser (List Function ⊕ List Function) := do
  if ← atEnd then return .inr functions
  else
    let name ← following
    let f ← function
    if functions.any fun g => g.name = f.name then reject (.redeclaredFunction f.name) name
    else
      expect ";"
      return .inl (functions ++ [f])

/-- A program. -/
def program : Parser Program := do
  if ← atEnd then reject .emptyProgram (← current)
  else return ⟨← loop functionStep []⟩

/-- The program that a list of tokens spells, read from the whole list. -/
def parse (tokens : List Token) : Traced Failure Program :=
  .ofResult State.log (program (start tokens))

end WholeList

/-! ## States that hold more -/

/-- **The state `r` holds more than `s`**: behind the tokens ahead of `s` it has the end that `s`
sees, and whatever follows. -/
structure Extends (r s : State) : Prop where
  ahead : ∃ back, r.ahead = s.ahead ++ back ∧ back.headD r.stop = s.stop
  noEnd : ∀ t ∈ s.ahead, t.kind ≠ .eof
  stop : s.stop.kind = .eof
  scopes : r.scopes = s.scopes
  declared : r.declared = s.declared
  log : r.log = s.log

namespace Extends

variable {r s : State}

theorem length_le (h : Extends r s) : s.ahead.length ≤ r.ahead.length := by
  obtain ⟨back, hahead, -⟩ := h.ahead
  rw [hahead, List.length_append]
  exact Nat.le_add_right _ _

theorem current (h : Extends r s) : r.current = s.current := by
  obtain ⟨back, hahead, hstop⟩ := h.ahead
  unfold State.current
  rw [hahead]
  cases s.ahead with
  | nil => exact hstop
  | cons t rest => rfl

/-- The end of the input is what is seen when no token is ahead. -/
theorem ahead_ne_nil (h : Extends r s) (hkind : s.current.kind ≠ .eof) : s.ahead ≠ [] := by
  intro hnil
  have hstop : s.current = s.stop := by rw [State.current, hnil, List.headD_nil]
  exact hkind (hstop ▸ h.stop)

/-- The token after the one ahead is the same, unless the end is ahead. -/
theorem following (h : Extends r s) (hahead : s.ahead ≠ []) : r.following = s.following := by
  obtain ⟨back, hr, hstop⟩ := h.ahead
  obtain ⟨t, rest, hs⟩ := List.exists_cons_of_ne_nil hahead
  unfold State.following
  rw [hr, hs, List.cons_append, List.tail_cons, List.tail_cons]
  cases rest with
  | nil => exact hstop
  | cons u rest => rfl

/-- An end of the input is no word or sign. -/
theorem isAt (h : Extends r s) (text : String) : r.isAt text = s.isAt text := by
  obtain ⟨back, hr, hstop⟩ := h.ahead
  unfold State.isAt
  rw [hr]
  cases s.ahead with
  | cons t rest => rfl
  | nil =>
    cases back with
    | nil => rfl
    | cons t rest =>
      have hne : t.toLexeme ≠ .reserved text := by
        intro heq
        have hkind : t.kind = .eof := (show t = s.stop from hstop) ▸ h.stop
        rw [heq] at hkind
        cases hkind
      exact decide_eq_false hne

/-- The end is reached when no token is ahead. -/
theorem isEmpty (h : Extends r s) : decide (r.current.kind = .eof) = s.ahead.isEmpty := by
  rw [h.current]
  unfold State.current
  cases hs : s.ahead with
  | nil => exact decide_eq_true h.stop
  | cons t rest => exact decide_eq_false (h.noEnd t (by rw [hs]; exact List.mem_cons_self))

theorem next (h : Extends r s) (hahead : s.ahead ≠ []) : Extends r.next s.next where
  ahead := by
    obtain ⟨back, hr, hstop⟩ := h.ahead
    refine ⟨back, ?_, hstop⟩
    show r.ahead.tail = s.ahead.tail ++ back
    rw [hr, List.tail_append_of_ne_nil hahead]
  noEnd := fun t ht => h.noEnd t (List.mem_of_mem_tail ht)
  stop := h.stop
  scopes := h.scopes
  declared := h.declared
  log := h.log

theorem enter (h : Extends r s) : Extends r.enter s.enter where
  ahead := h.ahead
  noEnd := h.noEnd
  stop := h.stop
  scopes := by
    show [] :: r.scopes = [] :: s.scopes
    rw [h.scopes]
  declared := h.declared
  log := by
    show r.log.push _ = s.log.push _
    rw [h.log, h.scopes]

theorem leave (h : Extends r s) : Extends r.leave s.leave where
  ahead := h.ahead
  noEnd := h.noEnd
  stop := h.stop
  scopes := by
    show r.scopes.tail = s.scopes.tail
    rw [h.scopes]
  declared := h.declared
  log := by
    show r.log.push _ = s.log.push _
    rw [h.log, h.scopes]

end Extends

/-- Before anything is read, all tokens ahead are those in front of the first end and some more. -/
theorem extends_start (tokens : List Token) :
    Extends (WholeList.start tokens) (.ofTokens tokens) where
  ahead := by
    refine ⟨tokens.dropWhile fun t => t.kind ≠ .eof, List.takeWhile_append_dropWhile.symm, ?_⟩
    show List.headD _ (listEnd tokens) = State.stopOf tokens
    rw [State.stopOf_eq, List.headD_eq_head?_getD]
  noEnd := fun t ht => by
    have hkind := List.mem_takeWhile_imp (show t ∈ tokens.takeWhile _ from ht)
    exact of_decide_eq_true hkind
  stop := by
    show (State.stopOf tokens).kind = .eof
    unfold State.stopOf
    cases hfind : tokens.find? fun t => t.kind = .eof with
    | some stop =>
      have hkind := List.find?_some hfind
      exact of_decide_eq_true hkind
    | none =>
      cases tokens.getLast? with
      | none => rfl
      | some last => rfl
  scopes := rfl
  declared := rfl
  log := rfl

/-! ## Two runs -/

/-- **What two runs come to**, of which the second one started in the state `s`: the same value, and
then the second one has taken at least as many tokens as `k` says of the value; or the same
complaint about tokens. -/
def Alike (k : α → Nat) (s : State) (x y : EStateM.Result Failure State α) : Prop :=
  match y with
  | .ok a t => t.ahead.length + k a ≤ s.ahead.length ∧ ∃ u, x = .ok a u ∧ Extends u t
  | .error e t => e.complaint.IsAboutTokens ∧ ∃ u, x = .error e u ∧ Extends u t

/-- **The parser `p` does with more tokens what `q` does up to the end of the input**, as long as
fewer than `n` tokens are ahead of `q`. -/
def EndsAlike (n : Nat) (k : α → Nat) (p q : Parser α) : Prop :=
  ∀ r s, Extends r s → s.ahead.length < n → Alike k s (p r) (q s)

/-- The number of tokens that are taken with a value that is there only if one was taken. -/
def taken : Option α → Nat
  | none => 0
  | some _ => 1

/-- A round of a repetition takes a token unless it is the last one. -/
def perRound : σ ⊕ β → Nat
  | .inl _ => 1
  | .inr _ => 0

/-! ### Ways to build parsers -/

section Laws

variable {n m : Nat} {k : α → Nat} {p q : Parser α}

theorem EndsAlike.fewer (h : EndsAlike n k p q) (hn : m ≤ n) : EndsAlike m k p q :=
  fun r s hrs hs => h r s hrs (hs.trans_le hn)

theorem EndsAlike.uncounted (h : EndsAlike n k p q) : EndsAlike n (fun _ => 0) p q := by
  intro r s hrs hs
  have hp := h r s hrs hs
  cases hq : q s with
  | ok a t =>
    rw [hq] at hp
    exact ⟨(Nat.le_add_right _ _).trans hp.1, hp.2⟩
  | error e t =>
    rw [hq] at hp
    exact hp

theorem endsAlike_pure {a : α} (h : k a = 0) : EndsAlike n k (pure a) (pure a) :=
  fun r s hrs _ => ⟨by rw [h]; exact Nat.le_refl _, r, rfl, hrs⟩

/-- What follows finds as many tokens fewer ahead as were taken. -/
theorem Alike.bind {c : β → Nat} {f g : α → Parser β} {r s : State} (h : Alike k s (p r) (q s))
    (hs : s.ahead.length < n)
    (hnext : ∀ a, EndsAlike (n - k a) (fun b => c b - k a) (f a) (g a)) :
    Alike c s ((p >>= f) r) ((q >>= g) s) := by
  cases hq : q s with
  | error e t =>
    rw [hq] at h
    obtain ⟨hc, u, hu, hut⟩ := h
    rw [bind_of_error hq, bind_of_error hu]
    exact ⟨hc, u, rfl, hut⟩
  | ok a t =>
    rw [hq] at h
    obtain ⟨hle, u, hu, hut⟩ := h
    rw [bind_of_ok hq, bind_of_ok hu]
    have hrest := hnext a u t hut (by omega)
    cases hg : g a t with
    | error e v =>
      rw [hg] at hrest
      exact hrest
    | ok b v =>
      rw [hg] at hrest
      obtain ⟨hle', hv⟩ := hrest
      dsimp only at hle'
      exact ⟨by omega, hv⟩

theorem EndsAlike.bind {c : β → Nat} {f g : α → Parser β} (h : EndsAlike n k p q)
    (hnext : ∀ a, EndsAlike (n - k a) (fun b => c b - k a) (f a) (g a)) :
    EndsAlike n c (p >>= f) (q >>= g) :=
  fun r s hrs hs => (h r s hrs hs).bind hs hnext

theorem EndsAlike.ite {c : Prop} [Decidable c] {p' q' : Parser α} (h : EndsAlike n k p q)
    (h' : EndsAlike n k p' q') :
    EndsAlike n k (if c then p else p') (if c then q else q') := by
  split
  · exact h
  · exact h'

theorem EndsAlike.inScope (h : EndsAlike n k p q) :
    EndsAlike n k (inScope p) (inScope q) := by
  intro r s hrs hs
  have hp := h r.enter s.enter hrs.enter hs
  unfold Parser.inScope
  cases hq : q s.enter with
  | error e t =>
    rw [hq] at hp
    obtain ⟨hc, u, hu, hut⟩ := hp
    rw [hu]
    exact ⟨hc, u.leave, rfl, hut.leave⟩
  | ok a t =>
    rw [hq] at hp
    obtain ⟨hle, u, hu, hut⟩ := hp
    rw [hu]
    exact ⟨hle, u.leave, rfl, hut.leave⟩

/-- Both runs keep the token ahead, and it is the same one. -/
theorem EndsAlike.current {f g : Token → Parser α} (h : ∀ t, EndsAlike n k (f t) (g t)) :
    EndsAlike n k (Parser.current >>= f) (Parser.current >>= g) := by
  intro r s hrs hs
  show Alike k s (f r.current r) (g s.current s)
  rw [hrs.current]
  exact h s.current r s hrs hs

/-- A repetition ends before its budget does, since each round leaves fewer tokens ahead. -/
theorem endsAlike_iterate {step step' : σ → Parser (σ ⊕ β)}
    (h : ∀ x, EndsAlike n perRound (step x) (step' x)) {budget budget' : Nat} (hn : budget ≤ n)
    (hbudget : budget ≤ budget') (x : σ) :
    EndsAlike budget (fun _ => 0) (iterate step budget' x) (iterate step' budget x) := by
  induction budget generalizing budget' x with
  | zero => exact fun r s _ hs => absurd hs (Nat.not_lt_zero _)
  | succ budget ih =>
    cases budget' with
    | zero => exact absurd hbudget (Nat.not_succ_le_zero budget)
    | succ budget' =>
      rw [iterate, iterate]
      refine ((h x).fewer hn).bind fun next => ?_
      cases next with
      | inr b => exact endsAlike_pure rfl
      | inl y => exact ih (Nat.le_of_succ_le hn) (Nat.le_of_succ_le_succ hbudget) y

theorem endsAlike_loop {step step' : σ → Parser (σ ⊕ β)}
    (h : ∀ x, EndsAlike n perRound (step x) (step' x)) (x : σ) :
    EndsAlike n (fun _ => 0) (loop step x) (loop step' x) :=
  fun r s hrs hs =>
    endsAlike_iterate h hs (Nat.succ_le_succ hrs.length_le) x r s hrs (Nat.lt_succ_self _)

end Laws

/-! ### Operations -/

section Operations

variable {n : Nat} {k : α → Nat}

/-- A token is taken by both runs or by none, if an end of the input is not acceptable. -/
theorem alike_take? {f : Lexeme → Option α} {r s : State} (hrs : Extends r s)
    (hf : s.current.kind = .eof → f s.current.toLexeme = none) :
    Alike taken s (take? f r) (take? f s) := by
  obtain ⟨back, hr, hstop⟩ := hrs.ahead
  unfold take?
  rw [hr]
  cases hs : s.ahead with
  | nil =>
    cases back with
    | nil => exact ⟨Nat.le_refl _, r, rfl, hrs⟩
    | cons t rest =>
      have ht : s.current = t := by
        rw [State.current, hs]
        exact hstop.symm
      have hnone := hf (by rw [ht, show t = s.stop from hstop]; exact hrs.stop)
      rw [ht] at hnone
      rw [List.nil_append]
      dsimp only
      rw [hnone]
      exact ⟨Nat.le_refl _, r, rfl, hrs⟩
  | cons t rest =>
    have hnext : Extends { r with ahead := rest ++ back } { s with ahead := rest } := by
      have h := hrs.next (by rw [hs]; exact List.cons_ne_nil t rest)
      unfold State.next at h
      rwa [hr, hs] at h
    rw [List.cons_append]
    dsimp only
    cases f t.toLexeme with
    | none => exact ⟨Nat.le_refl _, r, rfl, hrs⟩
    | some a => exact ⟨by rw [hs]; exact Nat.le_refl _, _, rfl, hnext⟩

theorem endsAlike_take? {f : Lexeme → Option α} (hf : ∀ l, l.kind = .eof → f l = none) :
    EndsAlike n taken (take? f) (take? f) :=
  fun _ _ hrs _ => alike_take? hrs (hf _)

theorem endsAlike_isAt (text : String) : EndsAlike n (fun _ => 0) (isAt text) (isAt text) := by
  intro r s hrs _
  unfold isAt
  rw [hrs.isAt]
  exact ⟨Nat.le_refl _, r, rfl, hrs⟩

theorem endsAlike_reject {complaint : Complaint} (h : complaint.IsAboutTokens) (t : Token) :
    EndsAlike n k (reject complaint t) (reject complaint t) :=
  fun r _ hrs _ => ⟨h, r, rfl, hrs⟩

theorem endsAlike_failExpecting (wanted : Wanted) :
    EndsAlike n k (failExpecting wanted) (failExpecting wanted) := by
  intro r s hrs _
  unfold failExpecting
  rw [hrs.current]
  exact ⟨trivial, r, rfl, hrs⟩

theorem endsAlike_resolve (name : String) :
    EndsAlike n (fun _ => 0) (resolve name) (resolve name) := by
  intro r s hrs _
  unfold resolve
  rw [hrs.scopes]
  exact ⟨Nat.le_refl _, r, rfl, hrs⟩

theorem endsAlike_declare (name : Token) (type : Ty) :
    EndsAlike n (fun _ => 0) (declare name type) (declare name type) := by
  intro r s hrs _
  unfold declare
  rw [hrs.scopes, hrs.declared]
  cases s.scopes with
  | nil => exact ⟨trivial, r, rfl, hrs⟩
  | cons scope outer =>
    dsimp only
    split
    · exact ⟨trivial, r, rfl, hrs⟩
    · exact ⟨Nat.le_refl _, _, rfl, hrs.ahead, hrs.noEnd, hrs.stop, rfl, rfl, hrs.log⟩

theorem endsAlike_startFunction : EndsAlike n (fun _ => 0) startFunction startFunction :=
  fun _ _ hrs _ =>
    ⟨Nat.le_refl _, _, rfl, hrs.ahead, hrs.noEnd, hrs.stop, hrs.scopes, rfl, hrs.log⟩

theorem endsAlike_finishFunction (name : String) (count : Nat) (body : List Stmt) :
    EndsAlike n (fun _ => 0) (finishFunction name count body) (finishFunction name count body) := by
  intro r s hrs _
  have hrun (t : State) : finishFunction name count body t =
      .ok (.ofDeclarations name count t.declared body)
        (t.record (.parsedFunction name
          (Function.ofDeclarations name count t.declared body).params.length
          (Function.ofDeclarations name count t.declared body).locals.length
          (Function.ofDeclarations name count t.declared body).frameSize)) := rfl
  rw [hrun, hrun, hrs.declared]
  refine ⟨Nat.le_refl _, _, rfl, hrs.ahead, hrs.noEnd, hrs.stop, hrs.scopes, hrs.declared, ?_⟩
  show r.log.push _ = s.log.push _
  rw [hrs.log]

theorem endsAlike_accept (text : String) :
    EndsAlike n Bool.toNat (accept text) (accept text) := by
  refine EndsAlike.bind (endsAlike_take? fun l hl => if_neg ?_) fun o => ?_
  · rintro rfl
    cases hl
  · cases o with
    | none => exact endsAlike_pure rfl
    | some _ => exact endsAlike_pure rfl

/-- What follows a sign that was taken finds one token fewer ahead. -/
theorem EndsAlike.ifAccept {p q p' q' : Parser α} (text : String)
    (h : EndsAlike (n - 1) (fun a => k a - 1) p q) (h' : EndsAlike n k p' q') :
    EndsAlike n k (accept text >>= fun b => if b then p else p')
      (accept text >>= fun b => if b then q else q') := by
  refine (endsAlike_accept text).bind fun b => ?_
  cases b with
  | true => exact h
  | false => exact h'

theorem EndsAlike.ifIsAt {p q p' q' : Parser α} (text : String) (h : EndsAlike n k p q)
    (h' : EndsAlike n k p' q') :
    EndsAlike n k (isAt text >>= fun b => if b then p else p')
      (isAt text >>= fun b => if b then q else q') :=
  (endsAlike_isAt text).bind fun _ => h.ite h'

theorem endsAlike_expect (text : String) :
    EndsAlike n (fun _ => 1) (expect text) (expect text) :=
  .ifAccept text (endsAlike_pure rfl) (endsAlike_failExpecting _)

theorem endsAlike_identifier : EndsAlike n (fun _ => 1) identifier identifier := by
  refine .current fun t => EndsAlike.bind (endsAlike_take? fun l hl => if_neg ?_) fun o => ?_
  · rw [hl]
    decide
  · cases o with
    | none => exact endsAlike_failExpecting _
    | some _ => exact endsAlike_pure rfl

theorem endsAlike_typeName : EndsAlike n (fun _ => 1) typeName typeName := by
  refine EndsAlike.bind (endsAlike_take? fun l hl => if_neg ?_) fun o => ?_
  · rw [hl]
    decide
  · cases o with
    | none => exact endsAlike_failExpecting _
    | some _ => exact endsAlike_pure rfl

end Operations

/-! ### Expressions -/

section Expressions

variable {n : Nat} {p q : Parser Expr}

theorem endsAlike_chainStep (operators : Operators) (h : EndsAlike n (fun _ => 1) p q)
    (left : Expr) :
    EndsAlike n perRound (chainStep operators p left) (chainStep operators q left) := by
  refine EndsAlike.bind (endsAlike_take? fun l hl => if_neg ?_) fun o => ?_
  · rw [hl]
    decide
  · cases o with
    | none => exact endsAlike_pure rfl
    | some combine =>
      have hoperand := h.fewer (Nat.sub_le n 1)
      exact hoperand.bind fun _ => endsAlike_pure rfl

theorem endsAlike_chain (operators : Operators) (h : EndsAlike n (fun _ => 1) p q) :
    EndsAlike n (fun _ => 1) (chain operators p) (chain operators q) :=
  h.bind fun first => endsAlike_loop
    (fun left => (endsAlike_chainStep operators h left).fewer (Nat.sub_le n 1))
    first

theorem endsAlike_signStep (minuses : Nat) :
    EndsAlike n perRound (signStep minuses) (signStep minuses) :=
  .ifAccept "+" (endsAlike_pure rfl) <| .ifAccept "-" (endsAlike_pure rfl) (endsAlike_pure rfl)

theorem endsAlike_unary (h : EndsAlike n (fun _ => 1) p q) :
    EndsAlike n (fun _ => 1) (unary p) (unary q) :=
  (endsAlike_loop endsAlike_signStep 0).bind fun _ => h.bind fun _ => endsAlike_pure rfl

theorem endsAlike_separator : EndsAlike n (fun _ => 0) separator separator :=
  .ifIsAt ")" (endsAlike_pure rfl)
    (endsAlike_expect ",").uncounted

theorem endsAlike_argumentStep (h : EndsAlike n (fun _ => 1) p q) (args : List Expr) :
    EndsAlike n perRound (argumentStep p args) (argumentStep q args) :=
  .ifAccept ")" (endsAlike_pure rfl) <| h.bind fun _ => endsAlike_separator.bind fun _ =>
    endsAlike_pure rfl

/-- The arguments of a call are read with two tokens fewer ahead, its name and the parenthesis. -/
theorem endsAlike_call (h : EndsAlike n (fun _ => 1) p q) :
    EndsAlike (n + 1) (fun _ => 1) (call p) (call q) := by
  have hargs (args : List Expr) :
      EndsAlike (n - 1) perRound (argumentStep p args) (argumentStep q args) :=
    (endsAlike_argumentStep h args).fewer (Nat.sub_le n 1)
  exact endsAlike_identifier.bind fun callee => (endsAlike_expect "(").bind fun _ =>
    (endsAlike_loop hargs []).bind fun _ =>
      .ite (endsAlike_pure rfl) (endsAlike_reject (by trivial) _)

/-- A numeral is looked for where one is ahead, and so not at the end of the input. -/
theorem alike_numeral {r s : State} (hrs : Extends r s) (hkind : s.current.kind = .num) :
    Alike (fun _ => 1) s (numeral r) (numeral s) := by
  have htake : Alike taken s (take? (fun l => Numeral.read? l.text) r)
      (take? (fun l => Numeral.read? l.text) s) :=
    alike_take? hrs fun heof => absurd (hkind.symm.trans heof) (by decide)
  unfold numeral
  rw [bind_of_ok (current_eq r), bind_of_ok (current_eq s), hrs.current]
  refine htake.bind (Nat.lt_succ_self _) fun o => ?_
  cases o with
  | none => exact endsAlike_reject (by trivial) _
  | some value => exact endsAlike_pure rfl

theorem endsAlike_variableUse : EndsAlike n (fun _ => 1) variableUse variableUse := by
  refine endsAlike_identifier.bind fun name => (endsAlike_resolve _).bind fun found => ?_
  cases found with
  | none => exact endsAlike_reject (by trivial) name
  | some id => exact endsAlike_pure rfl

/-- A token after the one ahead is looked at behind a name only, and so not past the end of the
input. -/
theorem endsAlike_primary (h : EndsAlike n (fun _ => 1) p q) :
    EndsAlike (n + 1) (fun _ => 1) (primary p) (primary q) := by
  refine .ifAccept "(" ?_ ?_
  · exact h.uncounted.bind fun _ => (endsAlike_expect ")").uncounted.bind fun _ =>
      endsAlike_pure rfl
  · intro r s hrs hs
    rw [bind_of_ok (current_eq r), bind_of_ok (current_eq s), hrs.current]
    cases hkind : s.current.kind with
    | num => exact alike_numeral hrs hkind
    | ident =>
      have hahead : s.ahead ≠ [] := hrs.ahead_ne_nil (by rw [hkind]; decide)
      show Alike _ s ((if r.following.text = "(" then call p else variableUse) r)
        ((if s.following.text = "(" then call q else variableUse) s)
      rw [hrs.following hahead]
      split
      · exact endsAlike_call h r s hrs hs
      · exact endsAlike_variableUse r s hrs hs
    | reserved => exact endsAlike_failExpecting _ r s hrs hs
    | eof => exact endsAlike_failExpecting _ r s hrs hs

theorem endsAlike_comparison (h : EndsAlike n (fun _ => 1) p q) :
    EndsAlike (n + 1) (fun _ => 1) (comparison p) (comparison q) :=
  endsAlike_chain _ <| endsAlike_chain _ <| endsAlike_chain _ <|
    endsAlike_unary <| endsAlike_primary h

/-- Expressions do not nest deeper than there are tokens ahead. -/
theorem endsAlike_exprAt (n : Nat) {m : Nat} (h : n ≤ m) :
    EndsAlike n (fun _ => 1) (exprAt m) (exprAt n) := by
  induction n generalizing m with
  | zero => exact fun r s _ hs => absurd hs (Nat.not_lt_zero _)
  | succ n ih =>
    cases m with
    | zero => exact absurd h (Nat.not_succ_le_zero n)
    | succ m => exact endsAlike_comparison (ih (Nat.le_of_succ_le_succ h))

theorem endsAlike_expr : EndsAlike n (fun _ => 1) expr expr :=
  fun r s hrs _ =>
    endsAlike_exprAt _ (Nat.succ_le_succ hrs.length_le) r s hrs (Nat.lt_succ_self _)

end Expressions

/-! ### Statements -/

section Statements

variable {n : Nat} {p q : Parser Stmt}

theorem endsAlike_simple : EndsAlike n (fun _ => 1) simple simple := by
  refine .current fun t => endsAlike_expr.bind fun left => .ifAccept "=" ?_ (endsAlike_pure rfl)
  cases left with
  | var id =>
    exact endsAlike_expr.uncounted.bind fun _ => endsAlike_pure rfl
  | num value => exact endsAlike_reject (by trivial) t
  | binary op l r => exact endsAlike_reject (by trivial) t
  | call callee args => exact endsAlike_reject (by trivial) t

theorem endsAlike_declaration : EndsAlike n (fun _ => 0) declaration declaration := by
  have hend {n : Nat} (name : Token) (type : Ty) (value : Expr) :
      EndsAlike n (fun _ => 0) (declare name type >>= fun id => pure (Stmt.assign id value))
        (declare name type >>= fun id => pure (Stmt.assign id value)) :=
    (endsAlike_declare name type).bind fun _ => endsAlike_pure rfl
  refine endsAlike_identifier.bind fun name => .ifAccept "=" ?_ ?_
  · exact endsAlike_expr.bind fun value => hend name _ value
  · refine endsAlike_typeName.bind fun type => .ifAccept "=" ?_ ?_
    · exact endsAlike_expr.bind fun value => hend name type value
    · exact hend name type _

theorem endsAlike_condition (start : Token) (s : Stmt) :
    EndsAlike n (fun _ => 0) (condition start s) (condition start s) := by
  cases s with
  | expr e => exact endsAlike_pure rfl
  | _ => exact endsAlike_reject (by trivial) start

theorem endsAlike_bodyStep (h : EndsAlike n (fun _ => 1) p q) (body : List Stmt) :
    EndsAlike n perRound (bodyStep p body) (bodyStep q body) :=
  .ifAccept ";" (endsAlike_pure rfl) <| .ifAccept "\x7d" (endsAlike_pure rfl) <|
    h.bind fun _ => .ifIsAt "\x7d" (endsAlike_pure rfl) <|
      (endsAlike_expect ";").uncounted.bind fun _ => endsAlike_pure rfl

/-- The statements of a block are read behind its opening brace. -/
theorem endsAlike_body (h : EndsAlike n (fun _ => 1) p q) :
    EndsAlike (n + 1) (fun _ => 1) (body p) (body q) :=
  (endsAlike_expect "\x7b").bind fun _ => endsAlike_loop (endsAlike_bodyStep h) []

theorem endsAlike_block (h : EndsAlike n (fun _ => 1) p q) :
    EndsAlike (n + 1) (fun _ => 1) (block p) (block q) :=
  (endsAlike_body h).inScope

theorem endsAlike_branchHead : EndsAlike n (fun _ => 0) branchHead branchHead :=
  .current fun start => endsAlike_simple.bind fun first =>
    .ifAccept ";" (endsAlike_expr.bind fun _ => endsAlike_pure rfl)
      ((endsAlike_condition start first).bind fun _ => endsAlike_pure rfl)

/-- The statements of the other case are read behind the word that begins it. -/
theorem endsAlike_otherwise (h : EndsAlike n (fun _ => 1) p q) :
    EndsAlike (n + 1) (fun _ => 0) (otherwise p) (otherwise q) := by
  have hblock := (endsAlike_block h).fewer (Nat.le_succ n)
  exact .ifAccept "else"
    (.ifIsAt "if" (h.bind fun _ => endsAlike_pure rfl)
      (hblock.bind fun _ => endsAlike_pure rfl))
    (endsAlike_pure rfl)

theorem endsAlike_branch (h : EndsAlike n (fun _ => 1) p q) :
    EndsAlike (n + 1) (fun _ => 0) (branch p) (branch q) := by
  have hother := (endsAlike_otherwise h).fewer (Nat.le_succ n)
  exact .inScope <| endsAlike_branchHead.bind fun _ => (endsAlike_block h).bind fun _ =>
    hother.bind fun _ => endsAlike_pure rfl

theorem endsAlike_loopClauses (init : Option Stmt) :
    EndsAlike n (fun _ => 0) (loopClauses init) (loopClauses init) := by
  have hpost {n : Nat} (cond : Option Expr) :
      EndsAlike n (fun _ => 0)
        (isAt "\x7b" >>= fun b =>
          if b then pure (init, cond, none)
          else simple >>= fun post => pure (init, cond, some post))
        (isAt "\x7b" >>= fun b =>
          if b then pure (init, cond, none)
          else simple >>= fun post => pure (init, cond, some post)) :=
    .ifIsAt "\x7b" (endsAlike_pure rfl) (endsAlike_simple.bind fun _ => endsAlike_pure rfl)
  refine (endsAlike_expect ";").bind fun _ => .ifIsAt ";" ?_ ?_
  · exact (endsAlike_expect ";").bind fun _ => hpost none
  · exact endsAlike_expr.bind fun cond => (endsAlike_expect ";").bind fun _ => hpost (some cond)

theorem endsAlike_loopHead : EndsAlike n (fun _ => 0) loopHead loopHead :=
  .ifIsAt "\x7b" (endsAlike_pure rfl) <| .ifIsAt ";" (endsAlike_loopClauses none) <|
    .current fun start => endsAlike_simple.bind fun first =>
      .ifIsAt ";" (endsAlike_loopClauses (some first))
        ((endsAlike_condition start first).bind fun _ => endsAlike_pure rfl)

theorem endsAlike_repetition (h : EndsAlike n (fun _ => 1) p q) :
    EndsAlike (n + 1) (fun _ => 0) (repetition p) (repetition q) :=
  .inScope <| endsAlike_loopHead.bind fun _ => (endsAlike_block h).bind fun _ => endsAlike_pure rfl

theorem endsAlike_statement (h : EndsAlike n (fun _ => 1) p q) :
    EndsAlike (n + 1) (fun _ => 1) (statement p) (statement q) := by
  have hbranch := (endsAlike_branch h).fewer (Nat.le_succ n)
  have hrepetition := (endsAlike_repetition h).fewer (Nat.le_succ n)
  exact .ifAccept "return" (endsAlike_expr.uncounted.bind fun _ => endsAlike_pure rfl) <|
    .ifAccept "var" endsAlike_declaration <|
    .ifAccept "if" hbranch <|
    .ifAccept "for" hrepetition <|
    .ifIsAt "\x7b" ((endsAlike_block h).bind fun _ => endsAlike_pure rfl) endsAlike_simple

/-- Statements do not nest deeper than there are tokens ahead. -/
theorem endsAlike_stmtAt (n : Nat) {m : Nat} (h : n ≤ m) :
    EndsAlike n (fun _ => 1) (stmtAt m) (stmtAt n) := by
  induction n generalizing m with
  | zero => exact fun r s _ hs => absurd hs (Nat.not_lt_zero _)
  | succ n ih =>
    cases m with
    | zero => exact absurd h (Nat.not_succ_le_zero n)
    | succ m => exact endsAlike_statement (ih (Nat.le_of_succ_le_succ h))

theorem endsAlike_stmt : EndsAlike n (fun _ => 1) stmt stmt :=
  fun r s hrs _ =>
    endsAlike_stmtAt _ (Nat.succ_le_succ hrs.length_le) r s hrs (Nat.lt_succ_self _)

end Statements

/-! ### Functions -/

section Functions

variable {n : Nat}

theorem endsAlike_parameterStep (count : Nat) :
    EndsAlike n perRound (parameterStep count) (parameterStep count) :=
  .ifAccept ")" (endsAlike_pure rfl) <| endsAlike_identifier.bind fun name =>
    endsAlike_typeName.bind fun type =>
      .ite
        ((endsAlike_declare name type).bind fun _ => endsAlike_separator.bind fun _ =>
          endsAlike_pure rfl)
        (endsAlike_reject (by trivial) name)

theorem endsAlike_signatureAndBody :
    EndsAlike n (fun _ => 0) signatureAndBody signatureAndBody := by
  have hbody {n : Nat} : EndsAlike n (fun _ => 1) (body stmt) (body stmt) :=
    (endsAlike_body endsAlike_stmt).fewer (Nat.le_succ n)
  exact .inScope <| (endsAlike_loop endsAlike_parameterStep 0).bind fun _ =>
    .ifIsAt "\x7b" (hbody.bind fun _ => endsAlike_pure rfl)
      (endsAlike_typeName.bind fun _ => hbody.bind fun _ => endsAlike_pure rfl)

theorem endsAlike_function : EndsAlike n (fun _ => 1) function function := by
  refine (endsAlike_expect "func").bind fun _ => endsAlike_identifier.uncounted.bind fun name => ?_
  refine (endsAlike_expect "(").uncounted.bind fun _ => endsAlike_startFunction.bind fun _ => ?_
  exact endsAlike_signatureAndBody.bind fun r => endsAlike_finishFunction name.text r.1 r.2

/-- The two readers differ in how they see the end of the input, and both see it at once. -/
theorem endsAlike_atEnd {k : α → Nat} {p q p' q' : Parser α} (h : EndsAlike n k p q)
    (h' : ∀ r s, Extends r s → s.ahead.length < n → s.ahead ≠ [] → Alike k s (p' r) (q' s)) :
    EndsAlike n k (WholeList.atEnd >>= fun b => if b then p else p')
      (atEnd >>= fun b => if b then q else q') := by
  intro r s hrs hs
  have hwhole : WholeList.atEnd r = .ok s.ahead.isEmpty r := by
    rw [WholeList.atEnd, hrs.isEmpty]
  have hpart : atEnd s = .ok s.ahead.isEmpty s := rfl
  rw [bind_of_ok hwhole, bind_of_ok hpart]
  by_cases hempty : s.ahead = []
  · rw [hempty]
    exact h r s hrs hs
  · have hfalse : s.ahead.isEmpty = false := List.isEmpty_eq_false_iff.2 hempty
    rw [hfalse]
    exact h' r s hrs hs hempty

theorem endsAlike_functionStep (functions : List Function) :
    EndsAlike n perRound (WholeList.functionStep functions) (functionStep functions) := by
  refine endsAlike_atEnd (endsAlike_pure rfl) fun r s hrs hs hahead => ?_
  have hfollowing (t : State) : following t = .ok t.following t := rfl
  rw [bind_of_ok (hfollowing r), bind_of_ok (hfollowing s), hrs.following hahead]
  refine (endsAlike_function r s hrs hs).bind hs fun f => ?_
  refine .ite (endsAlike_reject (by trivial) _) ?_
  exact (endsAlike_expect ";").uncounted.bind fun _ => endsAlike_pure rfl

theorem endsAlike_program : EndsAlike n (fun _ => 0) WholeList.program program := by
  refine endsAlike_atEnd (.current fun t => endsAlike_reject (by trivial) t) fun r s hrs hs _ => ?_
  exact (endsAlike_loop endsAlike_functionStep [] r s hrs hs).bind hs fun _ => endsAlike_pure rfl

end Functions

/-! ## Whole lists -/

theorem alike_program (tokens : List Token) :
    Alike (fun _ => 0) (.ofTokens tokens) (WholeList.program (WholeList.start tokens))
      (program (.ofTokens tokens)) :=
  endsAlike_program _ _ (extends_start tokens) (Nat.lt_succ_self _)

/-- **Nothing behind the first end of the input is read.**  Reading the whole list gives the same
program or the same complaint, and leaves the same log. -/
theorem parse_wholeList (tokens : List Token) :
    WholeList.parse tokens = Program.parse tokens := by
  have h := alike_program tokens
  unfold WholeList.parse Program.parse
  cases hq : program (.ofTokens tokens) with
  | ok p t =>
    rw [hq] at h
    obtain ⟨-, u, hu, hut⟩ := h
    rw [hu, Traced.ofResult, Traced.ofResult, hut.log]
  | error e t =>
    rw [hq] at h
    obtain ⟨-, u, hu, hut⟩ := h
    rw [hu, Traced.ofResult, Traced.ofResult, hut.log]

/-- **A program is refused for its tokens.**  No budget is used up, whatever the list. -/
theorem isAboutTokens_of_parse {tokens : List Token} {e : Failure}
    (h : (Program.parse tokens).result = .error e) : e.complaint.IsAboutTokens := by
  have halike := alike_program tokens
  unfold Program.parse at h
  cases hq : program (.ofTokens tokens) with
  | ok p t =>
    rw [hq] at h
    cases h
  | error e' t =>
    rw [hq] at h halike
    cases h
    exact halike.1

namespace State

variable {front : List Token}

/-- The tokens ahead are those in front of the first end of the input. -/
theorem ofTokens_append (hfront : ∀ t ∈ front, t.kind ≠ .eof) {stop : Token}
    (hstop : stop.kind = .eof) (rest : List Token) :
    ofTokens (front ++ stop :: rest) = { ahead := front, stop := stop } := by
  have hahead : (front ++ stop :: rest).takeWhile (fun t => t.kind ≠ .eof) = front := by
    rw [List.takeWhile_append_of_pos fun t ht => decide_eq_true (hfront t ht),
      List.takeWhile_cons_of_neg (by simp [hstop]), List.append_nil]
  have hfind : (front ++ stop :: rest).find? (fun t => t.kind = .eof) = some stop := by
    rw [List.find?_append, List.find?_eq_none.2 fun t ht => by simpa using hfront t ht,
      Option.none_or, List.find?_cons_of_pos (by simp [hstop])]
  unfold ofTokens stopOf
  rw [hahead, hfind]

/-- A list without an end of the input ends below its last token. -/
theorem ofTokens_of_noEnd (hfront : ∀ t ∈ front, t.kind ≠ .eof) :
    ofTokens front =
      { ahead := front
        stop := .endOfInput ((front.getLast?.map fun t => t.pos.nextLine).getD .start) } := by
  have hahead : front.takeWhile (fun t => t.kind ≠ .eof) = front :=
    List.takeWhile_eq_self_iff.2 fun t ht => decide_eq_true (hfront t ht)
  have hfind : front.find? (fun t => t.kind = .eof) = none :=
    List.find?_eq_none.2 fun t ht => by simpa using hfront t ht
  unfold ofTokens stopOf
  rw [hahead, hfind]
  cases front.getLast? with
  | none => rfl
  | some last => rfl

end State
end Parser

theorem programOf_congr {tokens tokens' : List Token} (source : String)
    (h : Parser.State.ofTokens tokens = Parser.State.ofTokens tokens') :
    programOf source tokens = programOf source tokens' := by
  unfold programOf Program.parse
  rw [h]

/-- **Nothing behind the first end of the input is read.**  A list of tokens, whatever stands in it,
is read like its first tokens up to and including its first end of the input; a list that has none
is read as if one stood at the start of the line below its last token.  Reading the whole list, with
what stands behind the first end of the input still ahead and with no end of the input put behind a
list that has none, comes to the same. -/
theorem programOf_ends_at_first_end (source : String) (tokens : List Token) :
    (∀ k, tokens.findIdx? (fun t => t.kind = .eof) = some k →
      programOf source tokens = programOf source (tokens.take (k + 1))) ∧
    ((∀ t ∈ tokens, t.kind ≠ .eof) →
      programOf source tokens =
        programOf source (tokens ++
          [.endOfInput ((tokens.getLast?.map fun t => t.pos.nextLine).getD .start)])) ∧
    (Parser.WholeList.parse tokens).mapError
      (fun failure => .rejected (failure.diagnostic source)) = programOf source tokens := by
  refine ⟨fun k hk => ?_, fun hnone => ?_, ?_⟩
  · obtain ⟨hlt, hend, hfirst⟩ := List.findIdx?_eq_some_iff_getElem.1 hk
    have hfront : ∀ t ∈ tokens.take k, t.kind ≠ .eof := by
      intro t ht
      obtain ⟨i, hi, rfl⟩ := List.mem_take_iff_getElem.1 ht
      simpa using hfirst i (by omega)
    have hread := Parser.State.ofTokens_append hfront (of_decide_eq_true hend)
    apply programOf_congr
    calc Parser.State.ofTokens tokens
        = .ofTokens (tokens.take k ++ tokens[k] :: tokens.drop (k + 1)) := by
          rw [List.getElem_cons_drop, List.take_append_drop]
      _ = .ofTokens (tokens.take k ++ [tokens[k]]) := (hread _).trans (hread []).symm
      _ = .ofTokens (tokens.take (k + 1)) := by rw [List.take_append_getElem]
  · apply programOf_congr
    rw [Parser.State.ofTokens_of_noEnd hnone, Parser.State.ofTokens_append hnone rfl]
  · rw [Parser.parse_wholeList]
    rfl

/-- A name stands in front of an end of the input whose text is an opening parenthesis, so a call
begins there, and arguments and more stand behind it.  Without these and without the end of the
input, the list ends on the line below. -/
theorem programOf_ends_at_first_end_call :
    let front : List Token := [⟨.reserved "func", ⟨1, 1⟩⟩, ⟨⟨.ident, "f"⟩, ⟨1, 6⟩⟩,
      ⟨.reserved "(", ⟨1, 7⟩⟩, ⟨.reserved ")", ⟨1, 8⟩⟩, ⟨.reserved "\x7b", ⟨1, 10⟩⟩,
      ⟨⟨.ident, "g"⟩, ⟨1, 12⟩⟩]
    let tokens : List Token := front ++ ⟨⟨.eof, "("⟩, ⟨1, 13⟩⟩ ::
      [⟨.reserved "(", ⟨1, 14⟩⟩, ⟨.reserved ")", ⟨1, 15⟩⟩, ⟨.reserved "\x7d", ⟨1, 16⟩⟩,
        ⟨.reserved ";", ⟨1, 17⟩⟩, .endOfInput ⟨2, 1⟩]
    programOf "" tokens = programOf "" (tokens.take 7) ∧
      programOf "" front = programOf "" (front ++ [.endOfInput ⟨2, 1⟩]) := by
  intro front tokens
  have hfirst : tokens.findIdx? (fun t => t.kind = .eof) = some 6 := by decide
  have hnone : ∀ t ∈ front, t.kind ≠ .eof := by decide
  exact ⟨(programOf_ends_at_first_end "" tokens).1 6 hfirst,
    (programOf_ends_at_first_end "" front).2.1 hnone⟩

end MicroGo
