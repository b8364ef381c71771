import MicroGo.Proofs.Grammar.Construction

/-!
# Tokens are taken from left to right

Whatever comes of a parser, a value or a failure, it stops at a suffix of the tokens that were
ahead of it, and the end of the input is still the same (`Advances`).  So a token that is ahead at
some time is one of the tokens of the text, at its own place.

The law is closed under the ways in which parsers are built from each other, and it holds of the
operations that look at a token or take one; so it holds of all parsers (`Built.advances`).
-/

namespace MicroGo
namespace Parser

variable {α β : Type}

/-- From the state `s` a parser gets to the state `t` by taking tokens. -/
structure State.Before (s t : State) : Prop where
  ahead : t.ahead <:+ s.ahead
  stop : t.stop = s.stop

theorem State.Before.refl (s : State) : s.Before s :=
  ⟨List.suffix_refl _, rfl⟩

theorem State.Before.trans {s t u : State} (h : s.Before t) (h' : t.Before u) : s.Before u :=
  ⟨h'.ahead.trans h.ahead, h'.stop.trans h.stop⟩

/-- The state in which a parser stops. -/
def lastState : EStateM.Result Failure State α → State
  | .ok _ t => t
  | .error _ t => t

/-- The parser takes tokens from left to right and does nothing else to them. -/
def Advances (p : Parser α) : Prop :=
  ∀ s : State, s.Before (lastState (p s))

/-! ## Ways to build parsers -/

theorem advances_pure (a : α) : Advances (pure a : Parser α) :=
  State.Before.refl

/-- What two parsers do to the state is done by the one after the other. -/
theorem rel_lastState_bind {R : State → State → Prop}
    (htrans : ∀ {s t u : State}, R s t → R t u → R s u) {p : Parser α} {g : α → Parser β}
    (h : ∀ s, R s (lastState (p s))) (hnext : ∀ a s, R s (lastState (g a s))) (s : State) :
    R s (lastState ((p >>= g) s)) := by
  have hp := h s
  show R s (lastState (EStateM.bind p g s))
  unfold EStateM.bind
  cases hr : p s with
  | ok a t =>
      rw [hr] at hp
      exact htrans hp (hnext a t)
  | error e t =>
      rw [hr] at hp
      exact hp

/-- A scope is closed whatever comes of the parser in it. -/
theorem lastState_inScope (p : Parser α) (s : State) :
    lastState (inScope p s) = (lastState (p s.enter)).leave := by
  unfold inScope
  cases p s.enter with
  | ok a t => rfl
  | error e t => rfl

theorem Advances.bind {p : Parser α} {g : α → Parser β} (h : Advances p)
    (hnext : ∀ a, Advances (g a)) : Advances (p >>= g) :=
  rel_lastState_bind (R := State.Before) State.Before.trans h hnext

/-- Scopes have no part in the tokens. -/
theorem Advances.inScope {p : Parser α} (h : Advances p) : Advances (inScope p) := by
  intro s
  rw [lastState_inScope]
  exact ⟨(h s.enter).ahead, (h s.enter).stop⟩

/-! ## Operations -/

theorem advances_take? (f : Lexeme → Option α) : Advances (take? f) := by
  intro s
  unfold take?
  cases hahead : s.ahead with
  | nil => exact State.Before.refl s
  | cons t rest =>
      dsimp only
      cases f t.toLexeme with
      | none => exact State.Before.refl s
      | some a =>
          refine ⟨?_, rfl⟩
          rw [hahead]
          exact List.suffix_cons t rest

theorem advances_declare (name : Token) (type : Ty) : Advances (declare name type) := by
  intro s
  unfold declare
  cases s.scopes with
  | nil => exact State.Before.refl s
  | cons scope outer =>
      dsimp only
      split
      · exact State.Before.refl s
      · exact ⟨List.suffix_refl _, rfl⟩

/-! ## All parsers -/

/-- **Parsers read from left to right.** -/
theorem Built.advances {g : Position → Position} {p q : Parser α} (h : Built g p q) :
    Advances p := by
  induction h with
  | pure a => exact advances_pure a
  | bind _ _ ih ihnext => exact ih.bind ihnext
  | current _ ih => exact fun s => ih s.current s
  | following _ ih => exact fun s => ih s.following s
  | inScope _ ih => exact ih.inScope
  | budgeted _ ih => exact fun s => ih _ s
  | take? f => exact advances_take? f
  | declare name type => exact advances_declare name type
  -- the other operations leave the tokens alone
  | isAt | atEnd | reject | failExpecting | exhausted | resolve => exact State.Before.refl
  | startFunction | finishFunction => exact fun _ => ⟨List.suffix_refl _, rfl⟩

/-- What is ahead of a function that was read is a suffix of what was ahead before. -/
theorem ahead_of_function {s t : State} {f : Function} (h : function s = .ok f t) :
    t.ahead <:+ s.ahead := by
  have hbefore := (built_function (g := id)).advances s
  rw [h] at hbefore
  exact hbefore.ahead

end Parser
end MicroGo
