import Mathlib.Tactic.Common
import MicroGo.Proofs.Grammar.Construction

/-!
# Only lexemes decide what is read

A parser looks at the lexemes of the tokens ahead.  It passes their places on to complaints and does
nothing else with them.  So when all tokens are moved, the same is read, or the same complaint is
made about the place to which the token in question was moved (`Built.relocates`).

## Lists with the same lexemes

Two lists of tokens that have the same lexemes are both got by moving a third list, in which each
token stands at its own number.  So both are read alike, and a complaint about one of them is made
about the other one at the token with the same number (`parse_alike`).
-/

namespace MicroGo

/-- The complaint about another place. -/
def Failure.relocate (g : Position → Position) (e : Failure) : Failure :=
  { e with pos := g e.pos }

namespace Parser

variable {α β : Type} {g : Position → Position}

/-- The state with all tokens at other places. -/
def State.relocate (g : Position → Position) (s : State) : State :=
  { s with ahead := s.ahead.map (Token.relocate g), stop := s.stop.relocate g }

/-- What comes of a parser, with all tokens at other places. -/
def relocateResult (g : Position → Position) :
    EStateM.Result Failure State α → EStateM.Result Failure State α
  | .ok a t => .ok a (t.relocate g)
  | .error e t => .error (e.relocate g) (t.relocate g)

/-- **The parser `q` does with the tokens at other places what `p` does with the tokens.** -/
def Relocates (g : Position → Position) (p q : Parser α) : Prop :=
  ∀ s : State, q (s.relocate g) = relocateResult g (p s)

theorem State.length_ahead_relocate (s : State) :
    (s.relocate g).ahead.length = s.ahead.length :=
  List.length_map _

theorem State.current_relocate (s : State) : (s.relocate g).current = s.current.relocate g := by
  obtain ⟨ahead, stop, scopes, declared, log⟩ := s
  cases ahead with
  | nil => rfl
  | cons t rest => rfl

theorem State.following_relocate (s : State) :
    (s.relocate g).following = s.following.relocate g := by
  obtain ⟨ahead, stop, scopes, declared, log⟩ := s
  cases ahead with
  | nil => rfl
  | cons t rest =>
    cases rest with
    | nil => rfl
    | cons u rest => rfl

/-! ## Ways to build parsers -/

theorem relocates_pure (a : α) : Relocates g (pure a : Parser α) (pure a) :=
  fun _ => rfl

theorem Relocates.bind {p q : Parser α} {k l : α → Parser β} (h : Relocates g p q)
    (hnext : ∀ a, Relocates g (k a) (l a)) : Relocates g (p >>= k) (q >>= l) := by
  intro s
  show EStateM.bind q l (s.relocate g) = relocateResult g (EStateM.bind p k s)
  unfold EStateM.bind
  rw [h s]
  cases p s with
  | ok a t => exact hnext a t
  | error e t => rfl

/-- Scopes have no part in the tokens. -/
theorem Relocates.inScope {p q : Parser α} (h : Relocates g p q) :
    Relocates g (inScope p) (inScope q) := by
  intro s
  have hs : q (s.relocate g).enter = relocateResult g (p s.enter) := h s.enter
  unfold Parser.inScope
  rw [hs]
  cases p s.enter with
  | ok a t => rfl
  | error e t => rfl

/-! ## Operations -/

theorem relocates_isAt (text : String) : Relocates g (isAt text) (isAt text) := by
  rintro ⟨ahead, stop, scopes, declared, log⟩
  cases ahead with
  | nil => rfl
  | cons t rest => rfl

theorem relocates_atEnd : Relocates g atEnd atEnd := by
  rintro ⟨ahead, stop, scopes, declared, log⟩
  cases ahead with
  | nil => rfl
  | cons t rest => rfl

theorem relocates_failExpecting (wanted : Wanted) :
    Relocates g (failExpecting wanted : Parser α) (failExpecting wanted) := by
  intro s
  unfold failExpecting
  rw [State.current_relocate]
  rfl

theorem relocates_exhausted : Relocates g (exhausted : Parser α) exhausted := by
  intro s
  unfold exhausted
  rw [State.current_relocate]
  rfl

theorem relocates_take? (f : Lexeme → Option α) : Relocates g (take? f) (take? f) := by
  rintro ⟨ahead, stop, scopes, declared, log⟩
  unfold take?
  cases ahead with
  | nil => rfl
  | cons t rest =>
    have hlexeme : (t.relocate g).toLexeme = t.toLexeme := rfl
    simp only [State.relocate, List.map_cons, hlexeme]
    cases f t.toLexeme with
    | none => rfl
    | some a => rfl

theorem relocates_declare (name : Token) (type : Ty) :
    Relocates g (declare name type) (declare (name.relocate g) type) := by
  intro s
  have hscopes : (s.relocate g).scopes = s.scopes := rfl
  have htext : (name.relocate g).text = name.text := rfl
  unfold declare
  rw [hscopes, htext]
  cases s.scopes with
  | nil => rfl
  | cons scope outer =>
    dsimp only
    split
    · rfl
    · rfl

/-! ## Tokens that are kept -/

section

variable {k l : Token → Parser β}

/-- What comes behind a look at the token ahead has got the token moved. -/
theorem Relocates.current (h : ∀ t, Relocates g (k t) (l (t.relocate g))) :
    Relocates g (Parser.current >>= k) (Parser.current >>= l) := by
  intro s
  show l (s.relocate g).current (s.relocate g) = relocateResult g (k s.current s)
  rw [State.current_relocate]
  exact h s.current s

theorem Relocates.following (h : ∀ t, Relocates g (k t) (l (t.relocate g))) :
    Relocates g (Parser.following >>= k) (Parser.following >>= l) := by
  intro s
  show l (s.relocate g).following (s.relocate g) = relocateResult g (k s.following s)
  rw [State.following_relocate]
  exact h s.following s

end

/-! ## All parsers -/

/-- **Only lexemes decide what a parser does.** -/
theorem Built.relocates {p q : Parser α} (h : Built g p q) : Relocates g p q := by
  induction h with
  | pure a => exact relocates_pure a
  | bind _ _ ih ihnext => exact ih.bind ihnext
  | current _ ih => exact .current ih
  | following _ ih => exact .following ih
  | inScope _ ih => exact ih.inScope
  | budgeted _ ih =>
    intro s
    dsimp only
    rw [s.length_ahead_relocate]
    exact ih _ s
  | isAt text => exact relocates_isAt text
  | atEnd => exact relocates_atEnd
  | failExpecting wanted => exact relocates_failExpecting wanted
  | exhausted => exact relocates_exhausted
  | take? f => exact relocates_take? f
  | declare name type => exact relocates_declare name type
  -- the other operations do not look at the tokens
  | reject | resolve | startFunction | finishFunction => exact fun _ => rfl

/-! ## Lists with the same lexemes -/

namespace State

/-- The token with a number, among those ahead.  Past the last one there is the end of the input. -/
def tokenAt (s : State) (i : Nat) : Token :=
  s.ahead.getD i s.stop

/-- The state before anything of the given lexemes is read, with each token at its own number. -/
def numbered (lexemes : List Lexeme) (stop : Lexeme) : State where
  ahead := lexemes.mapIdx fun i l => ⟨l, ⟨i, 0⟩⟩
  stop := ⟨stop, ⟨lexemes.length, 0⟩⟩

theorem tokenAt_of_getElem? {s : State} {i : Nat} {t : Token} (h : s.ahead[i]? = some t) :
    s.tokenAt i = t := by
  rw [tokenAt, List.getD_eq_getElem?_getD, h]
  rfl

theorem tokenAt_of_le {s : State} {i : Nat} (h : s.ahead.length ≤ i) : s.tokenAt i = s.stop := by
  rw [tokenAt, List.getD_eq_getElem?_getD, List.getElem?_eq_none h]
  rfl

/-- A list of tokens is got by moving each token from its number to its place. -/
theorem relocate_numbered (tokens : List Token) :
    (numbered ((ofTokens tokens).ahead.map Token.toLexeme) (stopOf tokens).toLexeme).relocate
      (fun pos => ((ofTokens tokens).tokenAt pos.line).pos) = ofTokens tokens := by
  have hahead : (((ofTokens tokens).ahead.map Token.toLexeme).mapIdx fun i l =>
      (⟨l, ⟨i, 0⟩⟩ : Token)).map
        (Token.relocate fun pos => ((ofTokens tokens).tokenAt pos.line).pos) =
      (ofTokens tokens).ahead := by
    ext i : 1
    rw [List.getElem?_map, List.getElem?_mapIdx, List.getElem?_map]
    cases ht : (ofTokens tokens).ahead[i]? with
    | none => rfl
    | some t =>
      show some (Token.mk t.toLexeme ((ofTokens tokens).tokenAt i).pos) = some t
      rw [tokenAt_of_getElem? ht]
  have hstop : (Token.mk (stopOf tokens).toLexeme
      ⟨((ofTokens tokens).ahead.map Token.toLexeme).length, 0⟩).relocate
        (fun pos => ((ofTokens tokens).tokenAt pos.line).pos) = stopOf tokens := by
    show Token.mk (stopOf tokens).toLexeme ((ofTokens tokens).tokenAt (List.length _)).pos = _
    rw [tokenAt_of_le (Nat.le_of_eq (List.length_map _).symm)]
    rfl
  unfold numbered relocate
  rw [hahead, hstop]
  rfl

theorem map_toLexeme_ahead (tokens : List Token) :
    (ofTokens tokens).ahead.map Token.toLexeme =
      (tokens.map Token.toLexeme).takeWhile fun l => l.kind ≠ .eof := by
  rw [List.takeWhile_map]
  rfl

theorem toLexeme_stopOf (tokens : List Token) :
    (stopOf tokens).toLexeme =
      ((tokens.map Token.toLexeme).find? fun l => l.kind = .eof).getD ⟨.eof, ""⟩ := by
  have hkind : (tokens.find? ((fun l => decide (l.kind = .eof)) ∘ Token.toLexeme)) =
      tokens.find? fun t => t.kind = .eof := rfl
  rw [List.find?_map, hkind]
  unfold stopOf
  cases tokens.find? fun t => t.kind = .eof with
  | some stop => rfl
  | none =>
    cases tokens.getLast? with
    | none => rfl
    | some last => rfl

end State

/-- What comes of reading a list of tokens comes of reading the same lexemes at their numbers. -/
theorem parse_eq_numbered (tokens : List Token) :
    (Program.parse tokens).result =
      (Traced.ofResult State.log (relocateResult
        (fun pos => ((State.ofTokens tokens).tokenAt pos.line).pos)
        (program (.numbered ((State.ofTokens tokens).ahead.map Token.toLexeme)
          (State.stopOf tokens).toLexeme)))).result := by
  rw [← built_program.relocates, State.relocate_numbered]
  rfl

/-- **Lists with the same lexemes are read alike.**  They spell the same program, or there is the
same complaint about both, at the token with the same number. -/
theorem parse_alike {tokens tokens' : List Token}
    (h : tokens.map Token.toLexeme = tokens'.map Token.toLexeme) :
    (∃ p, (Program.parse tokens).result = .ok p ∧ (Program.parse tokens').result = .ok p) ∨
      ∃ complaint i,
        (Program.parse tokens).result =
          .error ⟨complaint, ((State.ofTokens tokens).tokenAt i).pos⟩ ∧
        (Program.parse tokens').result =
          .error ⟨complaint, ((State.ofTokens tokens').tokenAt i).pos⟩ := by
  rw [parse_eq_numbered tokens, parse_eq_numbered tokens', State.map_toLexeme_ahead,
    State.map_toLexeme_ahead, State.toLexeme_stopOf, State.toLexeme_stopOf, h]
  cases program (.numbered _ _) with
  | ok p t => exact .inl ⟨p, rfl, rfl⟩
  | error e t => exact .inr ⟨e.complaint, e.pos.line, rfl, rfl⟩

end Parser
end MicroGo
