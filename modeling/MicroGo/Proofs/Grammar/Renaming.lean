import Mathlib.Data.Set.Function
import MicroGo.Proofs.Grammar.Agreement
import MicroGo.Proofs.Program.Renaming

/-!
# Reading renamed tokens

If the names in a list of tokens are changed, and different names stay different, then the renamed
program is read from the list, or it is refused at the same place for the same kind of reason.

## Two runs

The parser is followed on both lists at once.  All along, the tokens ahead of the second run are
those ahead of the first one renamed, and so are the scopes and the declarations (`Renamed`).  The
law `Renames` says that two parsers keep this up, and there is one lemma for each parser, whose
proof follows the parser.  What the first run gives is renamed in what the second run gives.

## Names

A name is looked up and compared with other names, and that comes to the same where the renaming is
injective.  It need be injective on the names that can stand in the text only, so the law is told
that the names in question are among them: those ahead, those in the scopes, and those of the
functions that were read.  Apart from names, the parser asks of an identifier whether it is the name
of the type, and of the token behind an identifier whether its text is an opening parenthesis.
-/

namespace MicroGo

/-- **A renaming** of the names in a set: it keeps them apart, keeps the name of the type, and gives
no name the text of an opening parenthesis. -/
structure Renaming where
  names : Set String
  map : String → String
  injOn : Set.InjOn map names
  int_mem : "int" ∈ names
  map_int : map "int" = "int"
  paren_notMem : "(" ∉ names
  map_ne_paren : ∀ x ∈ names, map x ≠ "("

/-- The lexeme with its text renamed, if it is a name. -/
def Lexeme.rename (r : String → String) (l : Lexeme) : Lexeme :=
  { l with text := if l.kind = .ident then r l.text else l.text }

/-- The token with its text renamed, if it is a name. -/
def Token.rename (r : String → String) (t : Token) : Token :=
  { t with toLexeme := t.toLexeme.rename r }

theorem Lexeme.rename_of_ne {r : String → String} {l : Lexeme} (h : l.kind ≠ .ident) :
    l.rename r = l := by
  rw [Lexeme.rename, if_neg h]

theorem Lexeme.text_rename {r : String → String} {l : Lexeme} (h : l.kind = .ident) :
    (l.rename r).text = r l.text :=
  if_pos h

theorem Lexeme.rename_eq_reserved {r : String → String} {l : Lexeme} {text : String} :
    l.rename r = .reserved text ↔ l = .reserved text := by
  by_cases h : l.kind = .ident
  · constructor
    · intro heq
      have hkind : (l.rename r).kind = .reserved := by rw [heq]
      exact absurd (h.symm.trans hkind) (by decide)
    · rintro rfl
      cases h
  · rw [Lexeme.rename_of_ne h]

namespace Renaming

variable (ρ : Renaming)

/-- If the lexeme is a name, it is among those that are renamed. -/
def Covers (l : Lexeme) : Prop :=
  l.kind = .ident → l.text ∈ ρ.names

/-- The scope with its names renamed. -/
def scope (scope : Scope) : Scope :=
  scope.map (Prod.map ρ.map id)

variable {ρ}

theorem lookup_scope {scope : Scope} {name : String} (hscope : ∀ x ∈ scope, x.1 ∈ ρ.names)
    (hname : name ∈ ρ.names) : (ρ.scope scope).lookup (ρ.map name) = scope.lookup name := by
  induction scope with
  | nil => rfl
  | cons x scope ih =>
    obtain ⟨known, id⟩ := x
    have hknown : known ∈ ρ.names := hscope (known, id) List.mem_cons_self
    show List.lookup (ρ.map name) ((ρ.map known, id) :: ρ.scope scope) = _
    by_cases heq : name = known
    · rw [heq, List.lookup_cons_self, List.lookup_cons_self]
    · have hne : ρ.map name ≠ ρ.map known := fun h => heq (ρ.injOn hname hknown h)
      rw [List.lookup_cons, List.lookup_cons, beq_eq_false_iff_ne.2 heq,
        beq_eq_false_iff_ne.2 hne]
      exact ih fun x hx => hscope x (List.mem_cons_of_mem _ hx)

theorem find?_scopes {scopes : Scopes} {name : String}
    (hscopes : ∀ scope ∈ scopes, ∀ x ∈ scope, x.1 ∈ ρ.names) (hname : name ∈ ρ.names) :
    Scopes.find? (scopes.map ρ.scope) (ρ.map name) = scopes.find? name := by
  induction scopes with
  | nil => rfl
  | cons scope scopes ih =>
    show List.findSome? _ (ρ.scope scope :: scopes.map ρ.scope) = List.findSome? _ (scope :: scopes)
    rw [List.findSome?_cons, List.findSome?_cons, lookup_scope (hscopes scope List.mem_cons_self)
      hname]
    cases scope.lookup name with
    | some id => rfl
    | none => exact ih fun scope hscope => hscopes scope (List.mem_cons_of_mem _ hscope)

theorem ofName?_map {x : String} (hx : x ∈ ρ.names) : Ty.ofName? (ρ.map x) = Ty.ofName? x := by
  by_cases hint : x = "int"
  · rw [hint, ρ.map_int]
  · have hne : ρ.map x ≠ "int" := fun h => hint (ρ.injOn hx ρ.int_mem (h.trans ρ.map_int.symm))
    have hnone {y : String} (hy : y ≠ "int") : Ty.ofName? y = none := by
      cases htype : Ty.ofName? y with
      | none => rfl
      | some type => exact absurd (Parser.ofName?_eq_some htype).1 hy
    rw [hnone hint, hnone hne]

end Renaming

namespace Parser

variable {α β γ δ σ τ : Type} {ρ : Renaming}

/-- **The state `t` is the state `s` renamed**, and all names in it are covered. -/
structure Renamed (ρ : Renaming) (s t : State) : Prop where
  ahead : t.ahead = s.ahead.map (Token.rename ρ.map)
  stop : t.stop = s.stop.rename ρ.map
  scopes : t.scopes = s.scopes.map ρ.scope
  declared : t.declared = s.declared.map (Declaration.rename ρ.map)
  covered : ∀ u ∈ s.stop :: s.ahead, ρ.Covers u.toLexeme
  known : ∀ scope ∈ s.scopes, ∀ x ∈ scope, x.1 ∈ ρ.names

/-- What two runs come to: the second one gives what the first one gives renamed by `f`, and the
first one gives something with the property `Q`; or both complain about the same place. -/
def Matched (ρ : Renaming) (f : α → β) (Q : α → Prop) (x : EStateM.Result Failure State α)
    (y : EStateM.Result Failure State β) : Prop :=
  match x with
  | .ok a s => Q a ∧ ∃ t, y = .ok (f a) t ∧ Renamed ρ s t
  | .error e _ => ∃ e' t, y = .error e' t ∧ e'.pos = e.pos ∧
      e'.complaint.stage = e.complaint.stage

/-- **The parser `q` does in renamed states what `p` does.** -/
def Renames (ρ : Renaming) (f : α → β) (Q : α → Prop) (p : Parser α) (q : Parser β) : Prop :=
  ∀ s t, Renamed ρ s t → Matched ρ f Q (p s) (q t)

/-- Nothing is asked of a value. -/
abbrev Free : α → Prop :=
  fun _ => True

/-- The parser reads from renamed tokens the renamed expression. -/
abbrev RenamesExpr (ρ : Renaming) (p : Parser Expr) : Prop :=
  Renames ρ (Expr.rename ρ.map) Free p p

/-- The parser reads from renamed tokens the renamed statement. -/
abbrev RenamesStmt (ρ : Renaming) (p : Parser Stmt) : Prop :=
  Renames ρ (Stmt.rename ρ.map) Free p p

namespace Renamed

variable {s t : State}

theorem length (h : Renamed ρ s t) : t.ahead.length = s.ahead.length := by
  rw [h.ahead, List.length_map]

theorem current (h : Renamed ρ s t) : t.current = s.current.rename ρ.map := by
  unfold State.current
  rw [h.ahead, h.stop]
  cases s.ahead with
  | nil => rfl
  | cons u rest => rfl

theorem following (h : Renamed ρ s t) : t.following = s.following.rename ρ.map := by
  unfold State.following
  rw [h.ahead, h.stop, ← List.map_tail]
  cases s.ahead.tail with
  | nil => rfl
  | cons u rest => rfl

theorem lexemes (h : Renamed ρ s t) : t.lexemes = s.lexemes.map (Lexeme.rename ρ.map) := by
  unfold State.lexemes
  rw [h.ahead, List.map_map, List.map_map]
  rfl

theorem covers_current (h : Renamed ρ s t) : ρ.Covers s.current.toLexeme := by
  apply h.covered
  unfold State.current
  cases s.ahead with
  | nil => exact List.mem_cons_self
  | cons u rest => exact List.mem_cons_of_mem _ List.mem_cons_self

theorem covers_following (h : Renamed ρ s t) : ρ.Covers s.following.toLexeme := by
  apply h.covered
  unfold State.following
  cases hahead : s.ahead.tail with
  | nil => exact List.mem_cons_self
  | cons u rest =>
    refine List.mem_cons_of_mem _ (List.mem_of_mem_tail ?_)
    rw [hahead]
    exact List.mem_cons_self

theorem next (h : Renamed ρ s t) : Renamed ρ s.next t.next where
  ahead := by
    show t.ahead.tail = s.ahead.tail.map _
    rw [h.ahead, List.map_tail]
  stop := h.stop
  scopes := h.scopes
  declared := h.declared
  covered := fun u hu => by
    refine h.covered u ?_
    rcases List.mem_cons.1 hu with rfl | hu
    · exact List.mem_cons_self
    · exact List.mem_cons_of_mem _ (List.mem_of_mem_tail hu)
  known := h.known

theorem enter (h : Renamed ρ s t) : Renamed ρ s.enter t.enter where
  ahead := h.ahead
  stop := h.stop
  scopes := by
    show [] :: t.scopes = ([] :: s.scopes).map _
    rw [h.scopes]
    rfl
  declared := h.declared
  covered := h.covered
  known := fun scope hscope => by
    rcases List.mem_cons.1 hscope with rfl | hscope
    · exact fun x hx => absurd hx List.not_mem_nil
    · exact h.known scope hscope

theorem leave (h : Renamed ρ s t) : Renamed ρ s.leave t.leave where
  ahead := h.ahead
  stop := h.stop
  scopes := by
    show t.scopes.tail = s.scopes.tail.map _
    rw [h.scopes, List.map_tail]
  declared := h.declared
  covered := h.covered
  known := fun scope hscope => h.known scope (List.mem_of_mem_tail hscope)

end Renamed

/-! ## Ways to build parsers -/

section Laws

variable {f : α → β} {g : γ → δ} {Q : α → Prop} {R : γ → Prop} {p : Parser α} {q : Parser β}

theorem renames_pure {a : α} {b : β} (h : f a = b) (ha : Q a) :
    Renames ρ f Q (pure a) (pure b) :=
  fun _ t hst => ⟨ha, t, by rw [h]; rfl, hst⟩

theorem Matched.bind {s t : State} {k : α → Parser γ} {l : β → Parser δ}
    (h : Matched ρ f Q (p s) (q t)) (hnext : ∀ a, Q a → Renames ρ g R (k a) (l (f a))) :
    Matched ρ g R ((p >>= k) s) ((q >>= l) t) := by
  cases hp : p s with
  | ok a s' =>
    rw [hp] at h
    obtain ⟨ha, t', hq, hst⟩ := h
    rw [bind_of_ok hp, bind_of_ok hq]
    exact hnext a ha s' t' hst
  | error e s' =>
    rw [hp] at h
    obtain ⟨e', t', hq, hsame⟩ := h
    rw [bind_of_error hp]
    exact ⟨e', t', bind_of_error hq, hsame⟩

theorem Renames.bind {k : α → Parser γ} {l : β → Parser δ} (h : Renames ρ f Q p q)
    (hnext : ∀ a, Q a → Renames ρ g R (k a) (l (f a))) : Renames ρ g R (p >>= k) (q >>= l) :=
  fun s t hst => (h s t hst).bind hnext

theorem Renames.ite {c : Prop} [Decidable c] {p' : Parser α} {q' : Parser β}
    (h : Renames ρ f Q p q) (h' : Renames ρ f Q p' q') :
    Renames ρ f Q (if c then p else p') (if c then q else q') := by
  split
  · exact h
  · exact h'

theorem Renames.inScope (h : Renames ρ f Q p q) :
    Renames ρ f Q (Parser.inScope p) (Parser.inScope q) := by
  intro s t hst
  have hrun := h s.enter t.enter hst.enter
  unfold Parser.inScope
  cases hp : p s.enter with
  | ok a s' =>
    rw [hp] at hrun
    obtain ⟨ha, t', hq, hst'⟩ := hrun
    rw [hq]
    exact ⟨ha, t'.leave, rfl, hst'.leave⟩
  | error e s' =>
    rw [hp] at hrun
    obtain ⟨e', t', hq, hsame⟩ := hrun
    rw [hq]
    exact ⟨e', t'.leave, rfl, hsame⟩

/-- The budget is the number of tokens ahead. -/
theorem Renames.budgeted {p : Nat → Parser α} {q : Nat → Parser β}
    (h : ∀ n, Renames ρ f Q (p n) (q n)) :
    Renames ρ f Q (fun s => p (s.ahead.length + 1) s) (fun s => q (s.ahead.length + 1) s) := by
  intro s t hst
  dsimp only
  rw [hst.length]
  exact h _ s t hst

theorem renames_reject {complaint complaint' : Complaint} {token token' : Token}
    (hstage : complaint'.stage = complaint.stage) (hpos : token'.pos = token.pos) :
    Renames ρ f Q (reject complaint token) (reject complaint' token') :=
  fun _ t _ => ⟨_, t, rfl, hpos, hstage⟩

theorem renames_failExpecting (wanted : Wanted) :
    Renames ρ f Q (failExpecting wanted) (failExpecting wanted) := by
  intro s t hst
  refine ⟨_, t, rfl, ?_, rfl⟩
  rw [hst.current]
  rfl

theorem renames_exhausted : Renames ρ f Q exhausted exhausted := by
  intro s t hst
  refine ⟨_, t, rfl, ?_, rfl⟩
  rw [hst.current]
  rfl

theorem renames_iterate {step : σ → Parser (σ ⊕ α)} {step' : τ → Parser (τ ⊕ β)} {m : σ → τ}
    {P : σ → Prop}
    (h : ∀ x, P x → Renames ρ (Sum.map m f) (Sum.elim P Q) (step x) (step' (m x)))
    (budget : Nat) {x : σ} (hx : P x) :
    Renames ρ f Q (iterate step budget x) (iterate step' budget (m x)) := by
  induction budget generalizing x with
  | zero => exact renames_exhausted
  | succ budget ih =>
    refine (h x hx).bind fun r hr => ?_
    cases r with
    | inl y => exact ih hr
    | inr b => exact renames_pure rfl hr

theorem renames_loop {step : σ → Parser (σ ⊕ α)} {step' : τ → Parser (τ ⊕ β)} {m : σ → τ}
    {P : σ → Prop}
    (h : ∀ x, P x → Renames ρ (Sum.map m f) (Sum.elim P Q) (step x) (step' (m x))) {x : σ}
    (hx : P x) : Renames ρ f Q (loop step x) (loop step' (m x)) :=
  .budgeted fun budget => renames_iterate h budget hx

end Laws

/-! ## Looking at tokens and taking them -/

theorem renames_current :
    Renames ρ (Token.rename ρ.map) (fun t => ρ.Covers t.toLexeme) current current :=
  fun _ t hst => ⟨hst.covers_current, t, by rw [← hst.current]; rfl, hst⟩

theorem renames_following :
    Renames ρ (Token.rename ρ.map) (fun t => ρ.Covers t.toLexeme) following following :=
  fun _ t hst => ⟨hst.covers_following, t, by rw [← hst.following]; rfl, hst⟩

theorem renames_isAt (text : String) : Renames ρ id Free (isAt text) (isAt text) := by
  intro s t hst
  refine ⟨trivial, t, ?_, hst⟩
  have hsame : t.isAt text = s.isAt text := by
    rw [Bool.eq_iff_iff, State.isAt_iff, State.isAt_iff, hst.lexemes]
    cases s.lexemes with
    | nil => rfl
    | cons l ls => simp [Lexeme.rename_eq_reserved]
  rw [isAt, hsame]
  rfl

theorem renames_atEnd : Renames ρ id Free atEnd atEnd := by
  intro s t hst
  refine ⟨trivial, t, ?_, hst⟩
  rw [atEnd, hst.ahead, List.isEmpty_map]
  rfl

theorem toLexeme_current {s : State} {l : Lexeme} (h : s.lexemes.head? = some l) :
    s.current.toLexeme = l := by
  obtain ⟨ls, hls⟩ := List.head?_eq_some_iff.1 h
  exact State.current_toLexeme hls

/-- A lexeme is taken if it is taken after it was renamed. -/
theorem matched_take? {s t : State} {f : α → β} {Q : α → Prop} {get : Lexeme → Option α}
    {get' : Lexeme → Option β} (hst : Renamed ρ s t)
    (h : ∀ l, s.lexemes.head? = some l →
      get' (l.rename ρ.map) = (get l).map f ∧ ∀ a ∈ get l, Q a) :
    Matched ρ (Option.map f) (fun o => ∀ a ∈ o, Q a) (take? get s) (take? get' t) := by
  rw [take?_eq, take?_eq, hst.lexemes, List.head?_map]
  cases hl : s.lexemes.head? with
  | none => exact ⟨by simp, t, rfl, hst⟩
  | some l =>
    obtain ⟨hget, hQ⟩ := h l hl
    rw [Option.map_some, Option.bind_some, Option.bind_some, hget]
    cases htaken : get l with
    | none => exact ⟨by simp, t, rfl, hst⟩
    | some a => exact ⟨fun b hb => hQ b (htaken.trans hb), t.next, rfl, hst.next⟩

theorem renames_take? {f : α → β} {Q : α → Prop} {get : Lexeme → Option α}
    {get' : Lexeme → Option β}
    (h : ∀ l, ρ.Covers l → get' (l.rename ρ.map) = (get l).map f ∧ ∀ a ∈ get l, Q a) :
    Renames ρ (Option.map f) (fun o => ∀ a ∈ o, Q a) (take? get) (take? get') :=
  fun _ _ hst => matched_take? hst fun l hl => h l (toLexeme_current hl ▸ hst.covers_current)

theorem renames_accept (text : String) : Renames ρ id Free (accept text) (accept text) := by
  have htake : Renames ρ (Option.map id) (fun o => ∀ a ∈ o, Free a)
      (take? fun l => if l = .reserved text then some () else none)
      (take? fun l => if l = .reserved text then some () else none) := by
    refine renames_take? fun l _ => ⟨?_, fun _ _ => trivial⟩
    by_cases hl : l = .reserved text
    · rw [if_pos hl, if_pos (Lexeme.rename_eq_reserved.2 hl)]
      rfl
    · rw [if_neg hl, if_neg fun h => hl (Lexeme.rename_eq_reserved.1 h)]
      rfl
  refine htake.bind fun taken _ => renames_pure ?_ trivial
  rw [Option.map_id]
  rfl

theorem renames_expect (text : String) : Renames ρ id Free (expect text) (expect text) :=
  (renames_accept text).bind fun _ _ => .ite (renames_pure rfl trivial) (renames_failExpecting _)

/-- The token is a name that is renamed. -/
def IsName (ρ : Renaming) (t : Token) : Prop :=
  t.kind = .ident ∧ t.text ∈ ρ.names

theorem IsName.text_rename {t : Token} (h : IsName ρ t) :
    (t.rename ρ.map).text = ρ.map t.text :=
  Lexeme.text_rename h.1

theorem renames_identifier :
    Renames ρ (Token.rename ρ.map) (IsName ρ) identifier identifier := by
  intro s t hst
  have htake : Matched ρ (Option.map id) (fun o => ∀ _ ∈ o, s.current.kind = .ident)
      (take? (fun l => if l.kind = .ident then some () else none) s)
      (take? (fun l => if l.kind = .ident then some () else none) t) := by
    refine matched_take? hst fun l hl => ?_
    rw [toLexeme_current hl, Option.map_id]
    exact ⟨rfl, fun _ htaken => by_contra fun hne => by rw [if_neg hne] at htaken; cases htaken⟩
  rw [identifier, bind_of_ok (current_eq s), bind_of_ok (current_eq t), hst.current]
  refine htake.bind fun taken htaken => ?_
  cases taken with
  | none => exact renames_failExpecting _
  | some u =>
    have hkind := htaken u rfl
    exact renames_pure rfl ⟨hkind, hst.covers_current hkind⟩

theorem renames_typeName : Renames ρ id Free typeName typeName := by
  have htake : Renames ρ (Option.map id) (fun o => ∀ a ∈ o, Free a)
      (take? fun l => if l.kind = .ident then Ty.ofName? l.text else none)
      (take? fun l => if l.kind = .ident then Ty.ofName? l.text else none) := by
    refine renames_take? fun l hl => ⟨?_, fun _ _ => trivial⟩
    by_cases hkind : l.kind = .ident
    · rw [if_pos hkind, if_pos (by exact hkind), Lexeme.text_rename hkind,
        Renaming.ofName?_map (hl hkind), Option.map_id]
      rfl
    · rw [if_neg hkind, if_neg (by exact hkind)]
      rfl
  refine htake.bind fun taken _ => ?_
  cases taken with
  | none => exact renames_failExpecting _
  | some type => exact renames_pure rfl trivial

/-! ## Scopes -/

theorem renames_resolve {name : String} (h : name ∈ ρ.names) :
    Renames ρ id Free (resolve name) (resolve (ρ.map name)) := by
  intro s t hst
  refine ⟨trivial, t, ?_, hst⟩
  rw [resolve, hst.scopes, Renaming.find?_scopes hst.known h]
  rfl

theorem renames_declare {name : Token} (h : IsName ρ name) (type : Ty) :
    Renames ρ id Free (declare name type) (declare (name.rename ρ.map) type) := by
  intro s t hst
  have hscopes := hst.scopes
  have hdeclared := hst.declared
  unfold declare
  rw [h.text_rename]
  cases hs : s.scopes with
  | nil =>
    rw [hs] at hscopes
    rw [hscopes]
    exact ⟨_, t, rfl, rfl, rfl⟩
  | cons scope outer =>
    rw [hs, List.map_cons] at hscopes
    have hscope : ∀ x ∈ scope, x.1 ∈ ρ.names :=
      hst.known scope (by rw [hs]; exact List.mem_cons_self)
    have hknows : Scope.knows (ρ.scope scope) (ρ.map name.text) = scope.knows name.text := by
      rw [Scope.knows, Scope.knows, Renaming.lookup_scope hscope h.2]
    rw [hscopes]
    dsimp only
    rw [hknows]
    split
    · exact ⟨_, t, rfl, rfl, rfl⟩
    · refine ⟨trivial, _, by rw [hdeclared, List.length_map]; rfl, ?_⟩
      exact
        { ahead := hst.ahead
          stop := hst.stop
          scopes := by
            show _ :: _ = List.map _ (_ :: outer)
            rfl
          declared := by
            show _ ++ [_] = List.map _ (s.declared ++ [_])
            rw [List.map_append]
            rfl
          covered := hst.covered
          known := by
            intro scope' hscope' x hx
            rcases List.mem_cons.1 hscope' with rfl | hscope'
            · rcases List.mem_cons.1 hx with rfl | hx
              · exact h.2
              · exact hscope x hx
            · exact hst.known scope' (by rw [hs]; exact List.mem_cons_of_mem _ hscope') x hx }

/-! ## Expressions -/

section Expressions

variable {operand nested : Parser Expr}

/-- The operator makes of renamed operands what it makes of the operands, renamed. -/
def Commutes (ρ : Renaming) (combine : Expr → Expr → Expr) : Prop :=
  ∀ l e, (combine l e).rename ρ.map = combine (l.rename ρ.map) (e.rename ρ.map)

theorem commutes_binary (op : BinaryOp) : Commutes ρ (.binary op) :=
  fun l e => by rw [Expr.rename]

theorem commutes_exchanged (op : BinaryOp) : Commutes ρ fun l e => .binary op e l :=
  fun l e => by rw [Expr.rename]

theorem commutes_of_mem {ops : Operators} (h : ops ∈ [comparisons, sums, products]) :
    ∀ x ∈ ops, Commutes ρ x.2 := by
  simp only [List.mem_cons, List.not_mem_nil, or_false] at h
  rcases h with rfl | rfl | rfl
  · simp only [comparisons, List.forall_mem_cons, commutes_binary, commutes_exchanged]
    simp
  · simp [sums, commutes_binary]
  · simp [products, commutes_binary]

theorem renames_chain {ops : Operators} (hops : ∀ x ∈ ops, Commutes ρ x.2)
    (h : RenamesExpr ρ operand) : RenamesExpr ρ (chain ops operand) := by
  have htake : Renames ρ (Option.map id) (fun o => ∀ combine ∈ o, Commutes ρ combine)
      (take? ops.ofLexeme?) (take? ops.ofLexeme?) := by
    refine renames_take? fun l _ => ?_
    unfold Operators.ofLexeme?
    by_cases hkind : l.kind = .reserved
    · rw [Lexeme.rename_of_ne (by rw [hkind]; decide), if_pos hkind, Option.map_id]
      refine ⟨rfl, fun combine hmem => ?_⟩
      obtain ⟨before, after, rfl, -⟩ := List.lookup_eq_some_iff.1 hmem
      exact hops (l.text, combine) (List.mem_append_right _ List.mem_cons_self)
    · rw [if_neg hkind, if_neg (by exact hkind)]
      exact ⟨rfl, by simp⟩
  refine h.bind fun first _ => renames_loop (P := Free) (fun left _ => ?_) trivial
  refine htake.bind fun taken htaken => ?_
  cases taken with
  | none => exact renames_pure rfl trivial
  | some combine =>
    refine h.bind fun e _ => renames_pure ?_ trivial
    exact congrArg Sum.inl (htaken combine rfl left e)

theorem renames_signStep (minuses : Nat) :
    Renames ρ (Sum.map id id) (Sum.elim Free Free) (signStep minuses) (signStep minuses) :=
  (renames_accept "+").bind fun _ _ => .ite (renames_pure rfl trivial) <|
    (renames_accept "-").bind fun _ _ =>
      .ite (renames_pure rfl trivial) (renames_pure rfl trivial)

theorem rename_repeat_negate (n : Nat) (e : Expr) :
    (Nat.repeat negate n e).rename ρ.map = Nat.repeat negate n (e.rename ρ.map) := by
  induction n with
  | zero => rfl
  | succ n ih =>
    show (Expr.binary .sub (.num 0) (Nat.repeat negate n e)).rename ρ.map = _
    rw [Expr.rename, Expr.rename, ih]
    rfl

theorem renames_unary (h : RenamesExpr ρ operand) : RenamesExpr ρ (unary operand) := by
  refine (renames_loop (P := Free) (fun n _ => renames_signStep n) trivial).bind fun n _ => ?_
  exact h.bind fun e _ => renames_pure (rename_repeat_negate n e) trivial

theorem renames_separator : Renames ρ id Free separator separator :=
  (renames_isAt ")").bind fun _ _ => .ite (renames_pure rfl trivial) (renames_expect ",")

theorem renames_argumentStep (h : RenamesExpr ρ nested) (args : List Expr) :
    Renames ρ (Sum.map (List.map (Expr.rename ρ.map)) (List.map (Expr.rename ρ.map)))
      (Sum.elim Free Free) (argumentStep nested args)
      (argumentStep nested (args.map (Expr.rename ρ.map))) :=
  (renames_accept ")").bind fun _ _ => .ite (renames_pure rfl trivial) <|
    h.bind fun _ _ => renames_separator.bind fun _ _ =>
      renames_pure (congrArg Sum.inl List.map_append) trivial

theorem renames_call (h : RenamesExpr ρ nested) : RenamesExpr ρ (call nested) := by
  refine renames_identifier.bind fun callee hcallee => (renames_expect "(").bind fun _ _ =>
    (renames_loop (P := Free) (fun args _ => renames_argumentStep h args) trivial).bind
      fun args _ => ?_
  rw [List.length_map]
  refine .ite (renames_pure ?_ trivial) (renames_reject rfl rfl)
  rw [Expr.rename, Expr.renameAll_eq, hcallee.text_rename]

theorem matched_numeral {s t : State} (hst : Renamed ρ s t) (h : s.current.kind = .num) :
    Matched ρ (Expr.rename ρ.map) Free (numeral s) (numeral t) := by
  have htake : Matched ρ (Option.map id) (fun o => ∀ _ ∈ o, True)
      (take? (fun l => Numeral.read? l.text) s) (take? (fun l => Numeral.read? l.text) t) := by
    refine matched_take? hst fun l hl => ⟨?_, fun _ _ => trivial⟩
    rw [Lexeme.rename_of_ne (by rw [← toLexeme_current hl, h]; decide), Option.map_id]
    rfl
  rw [numeral, bind_of_ok (current_eq s), bind_of_ok (current_eq t), hst.current]
  refine htake.bind fun taken _ => ?_
  cases taken with
  | none => exact renames_reject rfl rfl
  | some value => exact renames_pure (by rw [Expr.rename]; rfl) trivial

theorem renames_variableUse : RenamesExpr ρ variableUse := by
  refine renames_identifier.bind fun name hname => ?_
  rw [hname.text_rename]
  refine (renames_resolve hname.2).bind fun found _ => ?_
  cases found with
  | none => exact renames_reject rfl rfl
  | some id => exact renames_pure (by rw [Expr.rename]) trivial

theorem text_rename_eq_paren {t : Token} (h : ρ.Covers t.toLexeme) :
    (t.rename ρ.map).text = "(" ↔ t.text = "(" := by
  by_cases hkind : t.kind = .ident
  · have hmem := h hkind
    have hne : t.text ≠ "(" := fun heq => ρ.paren_notMem (heq ▸ hmem)
    rw [show (t.rename ρ.map).text = ρ.map t.text from Lexeme.text_rename hkind]
    exact iff_of_false (ρ.map_ne_paren _ hmem) hne
  · rw [show (t.rename ρ.map).toLexeme = t.toLexeme from Lexeme.rename_of_ne hkind]

theorem renames_primary (h : RenamesExpr ρ nested) : RenamesExpr ρ (primary nested) := by
  refine (renames_accept "(").bind fun _ _ => .ite ?_ ?_
  · exact h.bind fun _ _ => (renames_expect ")").bind fun _ _ => renames_pure rfl trivial
  · intro s t hst
    rw [bind_of_ok (current_eq s), bind_of_ok (current_eq t), hst.current]
    have hsame : (s.current.rename ρ.map).kind = s.current.kind := rfl
    rw [hsame]
    cases hkind : s.current.kind with
    | num => exact matched_numeral hst hkind
    | ident =>
      refine (renames_following.bind fun u hu => ?_) s t hst
      rw [ite_congr (propext (text_rename_eq_paren hu)) (fun _ => rfl) fun _ => rfl]
      exact .ite (renames_call h) renames_variableUse
    | reserved => exact renames_failExpecting _ s t hst
    | eof => exact renames_failExpecting _ s t hst

theorem renames_comparison (h : RenamesExpr ρ nested) : RenamesExpr ρ (comparison nested) :=
  renames_chain (commutes_of_mem (by simp)) <| renames_chain (commutes_of_mem (by simp)) <|
    renames_chain (commutes_of_mem (by simp)) <| renames_unary <| renames_primary h

theorem renames_exprAt (n : Nat) : RenamesExpr ρ (exprAt n) := by
  induction n with
  | zero => exact renames_exhausted
  | succ n ih => exact renames_comparison ih

theorem renames_expr : RenamesExpr ρ expr :=
  .budgeted renames_exprAt

end Expressions

/-! ## Statements -/

section Statements

variable {stmt nested : Parser Stmt}

/-- The head of a loop, renamed. -/
def renameHead (ρ : Renaming) : Option Stmt × Option Expr × Option Stmt →
    Option Stmt × Option Expr × Option Stmt :=
  Prod.map (Option.map (Stmt.rename ρ.map))
    (Prod.map (Option.map (Expr.rename ρ.map)) (Option.map (Stmt.rename ρ.map)))

theorem renames_simple : RenamesStmt ρ simple := by
  refine renames_current.bind fun t _ => renames_expr.bind fun left _ =>
    (renames_accept "=").bind fun _ _ => .ite ?_ (renames_pure (by rw [Stmt.rename]) trivial)
  cases left with
  | var id =>
    rw [Expr.rename]
    exact renames_expr.bind fun _ _ => renames_pure (by rw [Stmt.rename]) trivial
  | num value =>
    rw [Expr.rename]
    exact renames_reject rfl rfl
  | binary op l r =>
    rw [Expr.rename]
    exact renames_reject rfl rfl
  | call callee args =>
    rw [Expr.rename]
    exact renames_reject rfl rfl

theorem renames_declaration : RenamesStmt ρ declaration := by
  have hend {name : Token} (hname : IsName ρ name) (type : Ty) (value : Expr) :
      Renames ρ (Stmt.rename ρ.map) Free
        (declare name type >>= fun id => pure (Stmt.assign id value))
        (declare (name.rename ρ.map) type >>= fun id =>
          pure (Stmt.assign id (value.rename ρ.map))) :=
    (renames_declare hname type).bind fun _ _ => renames_pure (by rw [Stmt.rename]; rfl) trivial
  refine renames_identifier.bind fun name hname => (renames_accept "=").bind fun _ _ =>
    .ite ?_ ?_
  · exact renames_expr.bind fun value _ => hend hname _ value
  · refine renames_typeName.bind fun type _ => (renames_accept "=").bind fun _ _ => .ite ?_ ?_
    · exact renames_expr.bind fun value _ => hend hname type value
    · have hzero := hend hname type (.num 0)
      rw [Expr.rename] at hzero
      exact hzero

theorem renames_condition {start start' : Token} (h : start'.pos = start.pos) (s : Stmt) :
    Renames ρ (Expr.rename ρ.map) Free (condition start s)
      (condition start' (s.rename ρ.map)) := by
  cases s with
  | expr e =>
    rw [Stmt.rename]
    exact renames_pure rfl trivial
  | _ =>
    rw [Stmt.rename]
    exact renames_reject rfl h

theorem renames_bodyStep (h : RenamesStmt ρ stmt) (body : List Stmt) :
    Renames ρ (Sum.map (List.map (Stmt.rename ρ.map)) (List.map (Stmt.rename ρ.map)))
      (Sum.elim Free Free) (bodyStep stmt body)
      (bodyStep stmt (body.map (Stmt.rename ρ.map))) := by
  have hnext (next : Stmt) :
      Sum.map (List.map (Stmt.rename ρ.map)) (List.map (Stmt.rename ρ.map))
        (.inl (body ++ [next]) : List Stmt ⊕ List Stmt) =
          .inl (body.map (Stmt.rename ρ.map) ++ [next.rename ρ.map]) :=
    congrArg Sum.inl List.map_append
  exact (renames_accept ";").bind fun _ _ => .ite (renames_pure rfl trivial) <|
    (renames_accept "\x7d").bind fun _ _ => .ite (renames_pure rfl trivial) <|
      h.bind fun next _ => (renames_isAt "\x7d").bind fun _ _ =>
        .ite (renames_pure (hnext next) trivial)
          ((renames_expect ";").bind fun _ _ => renames_pure (hnext next) trivial)

theorem renames_body (h : RenamesStmt ρ stmt) :
    Renames ρ (List.map (Stmt.rename ρ.map)) Free (body stmt) (body stmt) :=
  (renames_expect "\x7b").bind fun _ _ =>
    renames_loop (P := Free) (fun body _ => renames_bodyStep h body) trivial

theorem renames_block (h : RenamesStmt ρ stmt) :
    Renames ρ (List.map (Stmt.rename ρ.map)) Free (block stmt) (block stmt) :=
  (renames_body h).inScope

theorem renames_branchHead :
    Renames ρ (Prod.map (Option.map (Stmt.rename ρ.map)) (Expr.rename ρ.map)) Free branchHead
      branchHead :=
  renames_current.bind fun _ _ => renames_simple.bind fun first _ =>
    (renames_accept ";").bind fun _ _ =>
      .ite (renames_expr.bind fun _ _ => renames_pure rfl trivial)
        ((renames_condition rfl first).bind fun _ _ => renames_pure rfl trivial)

theorem renames_otherwise (h : RenamesStmt ρ stmt) :
    Renames ρ (Option.map (Stmt.rename ρ.map)) Free (otherwise stmt) (otherwise stmt) := by
  refine (renames_accept "else").bind fun _ _ => .ite ?_ (renames_pure rfl trivial)
  refine (renames_isAt "if").bind fun _ _ =>
    .ite (h.bind fun _ _ => renames_pure rfl trivial) ?_
  refine (renames_block h).bind fun body _ => renames_pure ?_ trivial
  rw [Option.map_some, Stmt.rename, Stmt.renameAll_eq]

theorem renames_branch (h : RenamesStmt ρ stmt) : RenamesStmt ρ (branch stmt) := by
  refine .inScope <| renames_branchHead.bind fun head _ => (renames_block h).bind fun body _ =>
    (renames_otherwise h).bind fun other _ => renames_pure ?_ trivial
  show Stmt.rename ρ.map (.branch head.1 head.2 body other) = _
  rw [Stmt.rename, Stmt.optRename_eq, Stmt.renameAll_eq, Stmt.optRename_eq]

theorem renames_loopClauses (init : Option Stmt) :
    Renames ρ (renameHead ρ) Free (loopClauses init)
      (loopClauses (init.map (Stmt.rename ρ.map))) := by
  have hpost (cond : Option Expr) :
      Renames ρ (renameHead ρ) Free
        (isAt "\x7b" >>= fun b =>
          if b then pure (init, cond, none)
          else simple >>= fun post => pure (init, cond, some post))
        (isAt "\x7b" >>= fun b =>
          if b then pure (init.map (Stmt.rename ρ.map), cond.map (Expr.rename ρ.map), none)
          else simple >>= fun post =>
            pure (init.map (Stmt.rename ρ.map), cond.map (Expr.rename ρ.map), some post)) :=
    (renames_isAt "\x7b").bind fun _ _ => .ite (renames_pure rfl trivial)
      (renames_simple.bind fun _ _ => renames_pure rfl trivial)
  refine (renames_expect ";").bind fun _ _ => (renames_isAt ";").bind fun _ _ => .ite ?_ ?_
  · exact (renames_expect ";").bind fun _ _ => hpost none
  · exact renames_expr.bind fun cond _ => (renames_expect ";").bind fun _ _ => hpost (some cond)

theorem renames_loopHead : Renames ρ (renameHead ρ) Free loopHead loopHead :=
  (renames_isAt "\x7b").bind fun _ _ => .ite (renames_pure rfl trivial) <|
    (renames_isAt ";").bind fun _ _ => .ite (renames_loopClauses none) <|
      renames_current.bind fun _ _ => renames_simple.bind fun first _ =>
        (renames_isAt ";").bind fun _ _ => .ite (renames_loopClauses (some first))
          ((renames_condition rfl first).bind fun _ _ => renames_pure rfl trivial)

theorem renames_repetition (h : RenamesStmt ρ stmt) : RenamesStmt ρ (repetition stmt) := by
  refine .inScope <| renames_loopHead.bind fun head _ => (renames_block h).bind fun body _ =>
    renames_pure ?_ trivial
  show Stmt.rename ρ.map (.loop head.1 head.2.1 head.2.2 body) = _
  rw [Stmt.rename, Stmt.optRename_eq, Stmt.optRename_eq, Stmt.renameAll_eq]

theorem renames_statement (h : RenamesStmt ρ nested) : RenamesStmt ρ (statement nested) := by
  have hret (value : Expr) :
      (Stmt.ret value).rename ρ.map = .ret (value.rename ρ.map) := by rw [Stmt.rename]
  have hblock (body : List Stmt) :
      (Stmt.block body).rename ρ.map = .block (body.map (Stmt.rename ρ.map)) := by
    rw [Stmt.rename, Stmt.renameAll_eq]
  exact (renames_accept "return").bind fun _ _ =>
      .ite (renames_expr.bind fun value _ => renames_pure (hret value) trivial) <|
    (renames_accept "var").bind fun _ _ => .ite renames_declaration <|
    (renames_accept "if").bind fun _ _ => .ite (renames_branch h) <|
    (renames_accept "for").bind fun _ _ => .ite (renames_repetition h) <|
    (renames_isAt "\x7b").bind fun _ _ =>
      .ite ((renames_block h).bind fun body _ => renames_pure (hblock body) trivial)
        renames_simple

theorem renames_stmtAt (n : Nat) : RenamesStmt ρ (stmtAt n) := by
  induction n with
  | zero => exact renames_exhausted
  | succ n ih => exact renames_statement ih

theorem renames_stmt : RenamesStmt ρ Parser.stmt :=
  .budgeted renames_stmtAt

end Statements

/-! ## Functions -/

theorem renames_parameterStep (count : Nat) :
    Renames ρ (Sum.map id id) (Sum.elim Free Free) (parameterStep count) (parameterStep count) :=
  (renames_accept ")").bind fun _ _ => .ite (renames_pure rfl trivial) <|
    renames_identifier.bind fun _ hname => renames_typeName.bind fun type _ =>
      .ite ((renames_declare hname type).bind fun _ _ => renames_separator.bind fun _ _ =>
        renames_pure rfl trivial) (renames_reject rfl rfl)

theorem renames_signatureAndBody :
    Renames ρ (Prod.map id (List.map (Stmt.rename ρ.map))) Free signatureAndBody
      signatureAndBody :=
  .inScope <| (renames_loop (P := Free) (fun n _ => renames_parameterStep n) trivial).bind
    fun _ _ => (renames_isAt "\x7b").bind fun _ _ =>
      .ite ((renames_body renames_stmt).bind fun _ _ => renames_pure rfl trivial)
        (renames_typeName.bind fun _ _ =>
          (renames_body renames_stmt).bind fun _ _ => renames_pure rfl trivial)

theorem renames_startFunction : Renames ρ id Free startFunction startFunction :=
  fun _ _ hst => ⟨trivial, _, rfl,
    ⟨hst.ahead, hst.stop, hst.scopes, rfl, hst.covered, hst.known⟩⟩

theorem renames_finishFunction {name : String} (h : name ∈ ρ.names) (count : Nat)
    (body : List Stmt) :
    Renames ρ (Function.rename ρ.map) (fun f => f.name ∈ ρ.names)
      (finishFunction name count body)
      (finishFunction (ρ.map name) count (body.map (Stmt.rename ρ.map))) := by
  intro s t hst
  let f := Function.ofDeclarations (ρ.map name) count t.declared (body.map (Stmt.rename ρ.map))
  let event : Event :=
    .parsedFunction (ρ.map name) f.params.length f.locals.length f.frameSize
  refine ⟨h, t.record event, ?_,
    ⟨hst.ahead, hst.stop, hst.scopes, hst.declared, hst.covered, hst.known⟩⟩
  rw [Function.rename_ofDeclarations, ← hst.declared]
  rfl

theorem renames_function :
    Renames ρ (Function.rename ρ.map) (fun f => f.name ∈ ρ.names) function function := by
  refine (renames_expect "func").bind fun _ _ => renames_identifier.bind fun name hname =>
    (renames_expect "(").bind fun _ _ => renames_startFunction.bind fun _ _ =>
      renames_signatureAndBody.bind fun r _ => ?_
  rw [hname.text_rename]
  exact renames_finishFunction hname.2 r.1 r.2

/-- Renamed functions clash where the functions clash. -/
theorem any_name_rename {fs : List Function} {f : Function} (hfs : ∀ g ∈ fs, g.name ∈ ρ.names)
    (hf : f.name ∈ ρ.names) :
    ((fs.map (Function.rename ρ.map)).any fun g => g.name = (f.rename ρ.map).name) =
      fs.any fun g => g.name = f.name := by
  rw [List.any_map, Bool.eq_iff_iff, List.any_eq_true, List.any_eq_true]
  refine exists_congr fun g => and_congr_right fun hg => ?_
  show decide (ρ.map g.name = ρ.map f.name) = true ↔ _
  rw [decide_eq_true_iff, decide_eq_true_iff]
  exact ρ.injOn.eq_iff (hfs g hg) hf

theorem renames_functionStep {functions : List Function}
    (h : ∀ g ∈ functions, g.name ∈ ρ.names) :
    Renames ρ (Sum.map (List.map (Function.rename ρ.map)) (List.map (Function.rename ρ.map)))
      (Sum.elim (fun fs => ∀ g ∈ fs, g.name ∈ ρ.names) Free) (functionStep functions)
      (functionStep (functions.map (Function.rename ρ.map))) := by
  refine renames_atEnd.bind fun _ _ => .ite (renames_pure rfl trivial) <|
    renames_following.bind fun name _ => renames_function.bind fun f hf => ?_
  rw [any_name_rename h hf]
  refine .ite (renames_reject rfl rfl) <| (renames_expect ";").bind fun _ _ =>
    renames_pure (congrArg Sum.inl List.map_append) ?_
  intro g hg
  rcases List.mem_append.1 hg with hg | hg
  · exact h g hg
  · rw [List.mem_singleton.1 hg]
    exact hf

/-- **The parser of programs reads from renamed tokens the renamed program.** -/
theorem renames_program : Renames ρ (Program.rename ρ.map) Free program program :=
  renames_atEnd.bind fun _ _ => .ite (renames_current.bind fun _ _ => renames_reject rfl rfl) <|
    (renames_loop (fun _ h => renames_functionStep h) (by simp)).bind fun _ _ =>
      renames_pure rfl trivial

/-! ## Lists of tokens -/

theorem kind_stopOf (tokens : List Token) : (State.stopOf tokens).kind = .eof := by
  unfold State.stopOf
  cases hfind : tokens.find? fun t => t.kind = .eof with
  | some stop =>
    have hkind := List.find?_some hfind
    exact of_decide_eq_true hkind
  | none =>
    cases tokens.getLast? with
    | none => rfl
    | some last => rfl

theorem stopOf_map_rename (tokens : List Token) (r : String → String) :
    State.stopOf (tokens.map (Token.rename r)) = (State.stopOf tokens).rename r := by
  have hfind : (tokens.map (Token.rename r)).find? (fun t => t.kind = .eof) =
      (tokens.find? fun t => t.kind = .eof).map (Token.rename r) := List.find?_map
  unfold State.stopOf
  rw [hfind, List.getLast?_map]
  cases tokens.find? fun t => t.kind = .eof with
  | some stop => rfl
  | none =>
    cases tokens.getLast? with
    | none => rfl
    | some last => rfl

theorem renamed_ofTokens {tokens : List Token} (h : ∀ t ∈ tokens, ρ.Covers t.toLexeme) :
    Renamed ρ (.ofTokens tokens) (.ofTokens (tokens.map (Token.rename ρ.map))) where
  ahead := List.takeWhile_map
  stop := stopOf_map_rename tokens ρ.map
  scopes := rfl
  declared := rfl
  covered := fun u hu => by
    rcases List.mem_cons.1 hu with rfl | hu
    · exact fun hkind => absurd ((kind_stopOf tokens).symm.trans hkind) (by decide)
    · exact h u ((List.takeWhile_sublist _).subset hu)
  known := by simp [State.ofTokens]

/-- **Renamed tokens are read as the renamed program**, or refused at the same place and for the
same kind of reason. -/
theorem parse_rename {tokens : List Token} (h : ∀ t ∈ tokens, ρ.Covers t.toLexeme) :
    (∃ p, (Program.parse tokens).result = .ok p ∧
      (Program.parse (tokens.map (Token.rename ρ.map))).result = .ok (p.rename ρ.map)) ∨
    ∃ e e', (Program.parse tokens).result = .error e ∧
      (Program.parse (tokens.map (Token.rename ρ.map))).result = .error e' ∧
      e'.pos = e.pos ∧ e'.complaint.stage = e.complaint.stage := by
  have hrun := renames_program _ _ (renamed_ofTokens h)
  unfold Program.parse
  cases hp : program (.ofTokens tokens) with
  | ok p s =>
    rw [hp] at hrun
    obtain ⟨-, t, hq, -⟩ := hrun
    rw [hq]
    exact .inl ⟨p, rfl, rfl⟩
  | error e s =>
    rw [hp] at hrun
    obtain ⟨e', t, hq, hsame⟩ := hrun
    rw [hq]
    exact .inr ⟨e, e', rfl, rfl, hsame⟩

end Parser
end MicroGo
