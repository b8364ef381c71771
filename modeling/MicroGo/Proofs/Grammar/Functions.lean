import MicroGo.Proofs.Grammar.Advance
import MicroGo.Proofs.Grammar.Derivability
import MicroGo.Proofs.Grammar.Validity

/-!
# Functions one after another

What a function stands for does not depend on the functions in front of it (`Function.Means`); all
that is carried on from one function to the next is the names that are taken.  So functions are read
one by one, and each of them is either added to those already read or refused because of its name
(`functionStep_of_means`).  A refusal is about the token of the name.

## Where the names stand

The word that a function begins with stands nowhere else in it: no rule of the grammar but those of
functions and programs has it.  So the names of the functions of a text are the tokens behind this
word (`functionNames`).
-/

namespace MicroGo

namespace Grammar

/-! ## The word that functions begin with -/

/-- The word that functions begin with. -/
abbrev functionWord : Lexeme :=
  .reserved "func"

/-- The right-hand side has nothing to do with functions. -/
def Rhs.apart : Rhs → Bool
  | .lexeme l => l ≠ functionWord
  | .kind k => k ≠ .reserved
  | .ref n => n ≠ .program ∧ n ≠ .functionDecl
  | .seq a b => a.apart && b.apart
  | .alt a b => a.apart && b.apart
  | .opt a => a.apart
  | .many a => a.apart

/-- The right-hand side is a lexeme, and what follows it has nothing to do with functions. -/
def Rhs.apartBehind : Rhs → Bool
  | .lexeme _ => true
  | .seq a b => a.apartBehind && b.apart
  | _ => false

/-- The rules for what is inside of a function speak of what is inside of a function. -/
theorem apart_rule {n : Nonterminal} (h : (Rhs.ref n).apart = true) : (rule n).apart = true := by
  revert h
  cases n <;> decide

theorem Derivation.functionWord_notMem {r : Rhs} (d : Derivation r) (h : r.apart = true) :
    functionWord ∉ d.yield := by
  induction d with
  | lexeme l =>
      rw [Derivation.yield, List.mem_singleton]
      exact (of_decide_eq_true h).symm
  | kind k text =>
      rw [Derivation.yield, List.mem_singleton]
      rintro ⟨⟩
      exact of_decide_eq_true h rfl
  | ref n d ih => exact ih (apart_rule h)
  | seq d e ihd ihe =>
      obtain ⟨ha, hb⟩ := Bool.and_eq_true_iff.1 h
      rw [Derivation.yield, List.mem_append]
      exact not_or_intro (ihd ha) (ihe hb)
  | inl d ih => exact ih (Bool.and_eq_true_iff.1 h).1
  | inr d ih => exact ih (Bool.and_eq_true_iff.1 h).2
  | none => exact List.not_mem_nil
  | some d ih => exact ih h
  | nil => exact List.not_mem_nil
  | cons d ds ihd ihds =>
      rw [Derivation.yield, List.mem_append]
      exact not_or_intro (ihd h) (ihds h)

theorem Derivation.functionWord_notMem_tail {r : Rhs} (d : Derivation r)
    (h : r.apartBehind = true) : d.yield ≠ [] ∧ functionWord ∉ d.yield.tail := by
  induction d with
  | lexeme l => exact ⟨List.cons_ne_nil l [], List.not_mem_nil⟩
  | seq d e ihd _ =>
      obtain ⟨ha, hb⟩ := Bool.and_eq_true_iff.1 h
      obtain ⟨hne, htail⟩ := ihd ha
      rw [Derivation.yield, List.tail_append_of_ne_nil hne, List.mem_append]
      exact ⟨List.append_ne_nil_of_left_ne_nil hne _,
        not_or_intro htail (e.functionWord_notMem hb)⟩
  | _ => cases h

/-- **The word that a function begins with stands nowhere else in it.** -/
theorem functionWord_notMem_tail (t : Function) : functionWord ∉ t.lexemes.tail := by
  obtain ⟨d, hd⟩ := derives_function t
  rw [← hd]
  cases d with
  | ref n d => exact (d.functionWord_notMem_tail (by decide)).2

/-! ## The names of functions -/

/-- The tokens behind the words that functions begin with. -/
def functionNames : List Token → List Token
  | [] => []
  | t :: ts => (if t.toLexeme = functionWord then ts.head?.toList else []) ++ functionNames ts

theorem functionNames_append_of_notMem {xs : List Token} (ys : List Token)
    (h : functionWord ∉ xs.map Token.toLexeme) :
    functionNames (xs ++ ys) = functionNames ys := by
  induction xs with
  | nil => rfl
  | cons x xs ih =>
      rw [List.map_cons, List.mem_cons, not_or] at h
      rw [List.cons_append, functionNames, if_neg (Ne.symm h.1), List.nil_append, ih h.2]

/-- The name of a function is its second token. -/
theorem functionNames_of_function {t : Function} {xs : List Token}
    (h : xs.map Token.toLexeme = t.lexemes) :
    ∃ word name more, xs = word :: name :: more ∧ name.text = t.name ∧
      ∀ ys, functionNames (xs ++ ys) = name :: functionNames ys := by
  have htail := functionWord_notMem_tail t
  rw [← h] at htail
  obtain ⟨word, xs, rfl, hword, hxs⟩ := List.map_eq_cons_iff.1 h
  obtain ⟨name, more, rfl, hname, -⟩ := List.map_eq_cons_iff.1 hxs
  refine ⟨word, name, more, rfl, congrArg Lexeme.text hname, fun ys => ?_⟩
  rw [List.cons_append, functionNames, if_pos hword, functionNames_append_of_notMem ys htail]
  rfl

theorem functionLexemes_cons (t : Function) (ts : List Function) :
    functionLexemes (t :: ts) = t.lexemes ++ .reserved ";" :: functionLexemes ts := by
  simp [functionLexemes]

theorem functionLexemes_append (ts us : List Function) :
    functionLexemes (ts ++ us) = functionLexemes ts ++ functionLexemes us :=
  List.flatMap_append

theorem functionLexemes_ne_nil {ts : List Function} (h : ts ≠ []) : functionLexemes ts ≠ [] := by
  obtain ⟨t, ts, rfl⟩ := List.exists_cons_of_ne_nil h
  rw [functionLexemes_cons]
  exact List.cons_ne_nil _ _

/-- The names of functions one after another. -/
theorem functionNames_of_functions {ts : List Function} {xs : List Token}
    (h : xs.map Token.toLexeme = functionLexemes ts) :
    ((functionNames xs).map fun t => t.text) = ts.map Function.name ∧
      ∀ ys, functionNames (xs ++ ys) = functionNames xs ++ functionNames ys := by
  induction ts generalizing xs with
  | nil =>
      obtain rfl := List.map_eq_nil_iff.1 h
      exact ⟨rfl, fun ys => rfl⟩
  | cons t ts ih =>
      rw [functionLexemes_cons] at h
      obtain ⟨front, rest, rfl, hfront, hrest⟩ := List.map_eq_append_iff.1 h
      obtain ⟨sign, rest, rfl, hsign, hrest⟩ := List.map_eq_cons_iff.1 hrest
      obtain ⟨word, name, more, -, hname, hfirst⟩ := functionNames_of_function hfront
      obtain ⟨hnames, happend⟩ := ih hrest
      have hskip (ys : List Token) : functionNames (sign :: ys) = functionNames ys := by
        rw [functionNames, if_neg (by simp [hsign]), List.nil_append]
      constructor
      · rw [hfirst, hskip, List.map_cons, hnames, hname, List.map_cons]
      · intro ys
        rw [List.append_assoc, hfirst, hfirst, List.cons_append, hskip, hskip, happend,
          List.cons_append]

/-- The name of one function among others. -/
theorem functionNames_of_split {ts us : List Function} {t : Function} {xs : List Token}
    (h : xs.map Token.toLexeme = functionLexemes (ts ++ t :: us)) :
    ∃ front word name more names, xs = front ++ word :: name :: more ∧
      front.map Token.toLexeme = functionLexemes ts ∧ name.text = t.name ∧
      functionNames xs = functionNames front ++ name :: names := by
  rw [functionLexemes_append, functionLexemes_cons] at h
  obtain ⟨front, rest, rfl, hfront, hrest⟩ := List.map_eq_append_iff.1 h
  obtain ⟨inside, behind, rfl, hinside, -⟩ := List.map_eq_append_iff.1 hrest
  obtain ⟨word, name, more, rfl, hname, hfirst⟩ := functionNames_of_function hinside
  refine ⟨front, word, name, more ++ behind, functionNames behind, rfl, hfront, hname, ?_⟩
  rw [(functionNames_of_functions hfront).2, hfirst]

/-! ## What a function stands for -/

/-- The function that a function of the grammar stands for. -/
def Function.Means (t : Function) (g : MicroGo.Function) : Prop :=
  ∃ after, t.elaborate {} = .ok (g, after)

/-- Of what was known before, only the open scopes matter to a function. -/
theorem Function.elaborate_of_scopes (t : Function) {names : Names} (h : names.scopes = []) :
    t.elaborate names = t.elaborate {} := by
  unfold Function.elaborate
  rw [h]

theorem Function.Means.name_eq {t : Function} {g : MicroGo.Function} (h : t.Means g) :
    g.name = t.name := by
  obtain ⟨after, hafter⟩ := h
  exact (wellFormed_function hafter rfl).2.1

theorem means_of_functionsElaborate {ts : List Function} {done : List MicroGo.Function}
    {names : Names} {r : List MicroGo.Function × Names}
    (h : functionsElaborate done ts names = .ok r) (hscopes : names.scopes = []) :
    ∃ gs, r.1 = done ++ gs ∧ List.Forall₂ Function.Means ts gs := by
  induction ts generalizing names done with
  | nil =>
      obtain rfl := pure_eq_ok h
      exact ⟨[], (List.append_nil done).symm, .nil⟩
  | cons t ts ih =>
      obtain ⟨g, mid, hg, hrest⟩ := bind_eq_ok h
      obtain ⟨-, -, hmid⟩ := wellFormed_function hg hscopes
      split at hrest
      · cases hrest
      · obtain ⟨gs, hr, hmeans⟩ := ih hrest hmid
        rw [t.elaborate_of_scopes hscopes] at hg
        refine ⟨g :: gs, ?_, .cons ⟨mid, hg⟩ hmeans⟩
        rw [hr, List.append_assoc, List.singleton_append]

/-- A program that was read consists of what its functions stand for. -/
theorem exists_means_of_parse {tokens : List Token} {p : MicroGo.Program}
    (h : (Program.parse tokens).result = .ok p) :
    ∃ ts, lexemesOf tokens = functionLexemes ts ∧ ts ≠ [] ∧
      List.Forall₂ Function.Means ts p.functions := by
  obtain ⟨t, hspells, ht⟩ := exists_elaborate h
  obtain ⟨⟨fs, names⟩, hfs, hend⟩ := except_bind_eq_ok ht
  cases hend
  obtain ⟨gs, hgs, hmeans⟩ := means_of_functionsElaborate hfs rfl
  refine ⟨t.functions, hspells, List.cons_ne_nil _ _, ?_⟩
  rwa [show fs = gs from hgs]

theorem exists_split_of_means {ts : List Function} {before after : List MicroGo.Function}
    {g : MicroGo.Function} (h : List.Forall₂ Function.Means ts (before ++ g :: after)) :
    ∃ us u vs, ts = us ++ u :: vs ∧ List.Forall₂ Function.Means us before ∧ u.Means g := by
  have hfront := List.forall₂_take_append ts before (g :: after) h
  have hbehind := List.forall₂_drop_append ts before (g :: after) h
  obtain ⟨u, vs, hu, -, hvs⟩ := List.forall₂_cons_right_iff.1 hbehind
  exact ⟨_, u, vs, by rw [← hvs, List.take_append_drop], hfront, hu⟩

theorem map_name_of_means {ts : List Function} {gs : List MicroGo.Function}
    (h : List.Forall₂ Function.Means ts gs) :
    gs.map MicroGo.Function.name = ts.map Function.name := by
  induction h with
  | nil => rfl
  | cons hhead _ ih => rw [List.map_cons, List.map_cons, ih, hhead.name_eq]

end Grammar

open Grammar

/-! ## Reading functions -/

namespace Parser

variable {s t u : State} {ls ms : List Lexeme}

/-- From the state `s` to the state `t` the lexemes `ls` are taken. -/
def State.Takes (s : State) (ls : List Lexeme) (t : State) : Prop :=
  ∃ front, s.ahead = front ++ t.ahead ∧ front.map Token.toLexeme = ls

theorem State.Takes.trans (h : s.Takes ls t) (h' : t.Takes ms u) : s.Takes (ls ++ ms) u := by
  obtain ⟨front, hs, rfl⟩ := h
  obtain ⟨front', ht, rfl⟩ := h'
  exact ⟨front ++ front', by rw [hs, ht, List.append_assoc], List.map_append⟩

theorem State.takes_next {l : Lexeme} (h : s.lexemes = l :: ls) : s.Takes [l] s.next := by
  obtain ⟨x, xs, hx, hl, -⟩ := List.map_eq_cons_iff.1 h
  refine ⟨[x], ?_, by rw [List.map_singleton, hl]⟩
  rw [State.next, hx]
  rfl

/-- The tokens that were not taken are ahead. -/
theorem State.Takes.following_eq {xs more : List Token} {word name : Token} (h : s.Takes ls t)
    (hs : s.ahead = xs ++ word :: name :: more) (hxs : xs.map Token.toLexeme = ls) :
    t.following = name := by
  obtain ⟨front, hfront, hls⟩ := h
  have hlength : front.length = xs.length := by
    rw [← List.length_map Token.toLexeme, hls, ← hxs, List.length_map]
  rw [hs] at hfront
  rw [State.following, ← (List.append_inj hfront hlength.symm).2]
  rfl

/-- A function in front is read as what it stands for. -/
theorem function_of_means {f : Grammar.Function} {g : Function} (hf : f.Means g)
    (hlex : s.lexemes = f.lexemes ++ ls) (hscopes : s.scopes = []) :
    ∃ t, function s = .ok g t ∧ t.scopes = [] ∧ t.lexemes = ls ∧ s.Takes f.lexemes t := by
  obtain ⟨after, hafter⟩ := hf
  have hagrees := agrees_function f hlex
  rw [f.elaborate_of_scopes (show s.names.scopes = [] from hscopes), hafter] at hagrees
  obtain ⟨t, ht, hrest, hnames⟩ := hagrees
  have hclosed : t.names.scopes = [] := by
    rw [hnames]
    exact (wellFormed_function hafter rfl).2.2
  refine ⟨t, ht, hclosed, hrest, ?_⟩
  obtain ⟨front, hfront⟩ := ahead_of_function ht
  have hboth : front.map Token.toLexeme ++ ls = f.lexemes ++ ls := by
    rw [← hlex, State.lexemes, ← hfront, List.map_append, ← hrest]
    rfl
  exact ⟨front, hfront.symm, List.append_cancel_right hboth⟩

theorem functionStep_eq (done : List Function) (h : s.lexemes ≠ []) :
    functionStep done s = (function >>= fun g =>
      if done.any fun g' => g'.name = g.name then
        reject (.redeclaredFunction g.name) s.following
      else expect ";" >>= fun _ => pure (.inl (done ++ [g]))) s := by
  have hfollow : following s = .ok s.following s := rfl
  rw [functionStep, bind_of_ok (atEnd_of_ne h), if_neg (by decide), bind_of_ok hfollow]

/-- **One round in front of a function.**  It is added to those already read, or refused because one
of these has its name. -/
theorem functionStep_of_means {f : Grammar.Function} {g : Function} (hf : f.Means g)
    (hlex : s.lexemes = f.lexemes ++ .reserved ";" :: ls) (hscopes : s.scopes = [])
    (done : List Function) :
    (g.name ∈ done.map Function.name → ∃ t,
      functionStep done s = .error ⟨.redeclaredFunction g.name, s.following.pos⟩ t) ∧
    (g.name ∉ done.map Function.name → ∃ t, functionStep done s = .ok (.inl (done ++ [g])) t ∧
      t.scopes = [] ∧ t.lexemes = ls ∧ s.Takes (f.lexemes ++ [.reserved ";"]) t) := by
  obtain ⟨t, ht, hclosed, hrest, htakes⟩ := function_of_means hf hlex hscopes
  have hne : s.lexemes ≠ [] := by
    rw [hlex]
    exact List.cons_ne_nil _ _
  rw [functionStep_eq done hne, bind_of_ok ht]
  constructor
  · intro hclash
    rw [if_pos (by simpa using hclash)]
    exact ⟨t, rfl⟩
  · intro hnew
    rw [if_neg (by simpa using hnew), bind_of_ok (expect_of_cons hrest)]
    exact ⟨t.next, rfl, hclosed, lexemes_next_of_cons hrest, htakes.trans (State.takes_next hrest)⟩

/-- **The rounds over functions whose names are new.** -/
theorem iterate_functions {fs : List Grammar.Function} {gs : List Function}
    (hfs : List.Forall₂ Grammar.Function.Means fs gs) (done : List Function) (budget : Nat)
    (hlex : s.lexemes = functionLexemes fs ++ ls) (hscopes : s.scopes = [])
    (hnew : ((done ++ gs).map Function.name).Nodup) (hbudget : s.lexemes.length < budget) :
    ∃ left t, iterate functionStep budget done s = iterate functionStep left (done ++ gs) t ∧
      t.lexemes.length < left ∧ t.scopes = [] ∧ t.lexemes = ls ∧
      s.Takes (functionLexemes fs) t := by
  induction hfs generalizing s done budget with
  | nil => exact ⟨budget, s, by rw [List.append_nil], hbudget, hscopes, hlex, [], rfl, rfl⟩
  | @cons f g fs gs hf _ ih =>
      rw [functionLexemes_cons, List.append_assoc, List.cons_append] at hlex
      have hfresh : g.name ∉ done.map Function.name := by
        rw [List.map_append, List.map_cons, List.nodup_append] at hnew
        exact fun hmem => hnew.2.2 _ hmem _ List.mem_cons_self rfl
      obtain ⟨t, ht, hclosed, hrest, htakes⟩ :=
        (functionStep_of_means hf hlex hscopes done).2 hfresh
      have hlen : t.lexemes.length < s.lexemes.length := by
        simp only [hlex, hrest, List.length_append, List.length_cons]
        omega
      obtain ⟨budget, rfl⟩ : ∃ m, budget = m + 1 := ⟨budget - 1, by omega⟩
      rw [List.append_cons] at hnew ⊢
      obtain ⟨left, v, hv, hleft, hvscopes, hvlex, hvtakes⟩ :=
        ih (done ++ [g]) budget hrest hclosed hnew (by omega)
      refine ⟨left, v, (iterate_inl budget ht).trans hv, hleft, hvscopes, hvlex, ?_⟩
      rw [functionLexemes_cons, List.append_cons]
      exact htakes.trans hvtakes

/-- A program is read by rounds. -/
theorem program_eq (h : s.lexemes ≠ []) :
    program s = (iterate functionStep (s.lexemes.length + 1) [] >>= fun gs => pure ⟨gs⟩) s := by
  rw [program, bind_of_ok (atEnd_of_ne h), if_neg (by decide), State.length_lexemes]
  rfl

/-- Functions with different names are read. -/
theorem program_of_means {fs : List Grammar.Function} {gs : List Function}
    (hfs : List.Forall₂ Grammar.Function.Means fs gs) (hne : fs ≠ [])
    (hlex : s.lexemes = functionLexemes fs) (hscopes : s.scopes = [])
    (hnew : (gs.map Function.name).Nodup) : ∃ t, program s = .ok ⟨gs⟩ t := by
  have hlex' : s.lexemes = functionLexemes fs ++ [] := by rw [hlex, List.append_nil]
  obtain ⟨left, t, hrun, hleft, -, hend, -⟩ :=
    iterate_functions hfs [] _ hlex' hscopes hnew (Nat.lt_succ_self _)
  have hstep : functionStep gs t = .ok (.inr gs) t := by
    have hatEnd : atEnd t = .ok true t := by
      rw [atEnd, List.map_eq_nil_iff.1 hend]
      rfl
    rw [functionStep, bind_of_ok hatEnd]
    rfl
  obtain ⟨left, rfl⟩ : ∃ m, left = m + 1 := ⟨left - 1, by omega⟩
  rw [List.nil_append, iterate_inr left hstep] at hrun
  have hstart : s.lexemes ≠ [] := by
    rw [hlex]
    exact functionLexemes_ne_nil hne
  exact ⟨t, (program_eq hstart).trans (bind_of_ok hrun)⟩

/-- A function that has the name of another one in front of it is refused at its name. -/
theorem program_of_clash {fs : List Grammar.Function} {gs : List Function} {f : Grammar.Function}
    {g : Function} (hfs : List.Forall₂ Grammar.Function.Means fs gs) (hf : f.Means g)
    (hlex : s.lexemes = functionLexemes fs ++ (f.lexemes ++ .reserved ";" :: ls))
    (hscopes : s.scopes = []) (hnew : (gs.map Function.name).Nodup)
    (hclash : g.name ∈ gs.map Function.name) :
    ∃ t u, s.Takes (functionLexemes fs) t ∧
      program s = .error ⟨.redeclaredFunction g.name, t.following.pos⟩ u := by
  obtain ⟨left, t, hrun, hleft, hclosed, hend, htakes⟩ :=
    iterate_functions hfs [] _ hlex hscopes hnew (Nat.lt_succ_self _)
  obtain ⟨u, hu⟩ := (functionStep_of_means hf hend hclosed gs).1 hclash
  obtain ⟨left, rfl⟩ : ∃ m, left = m + 1 := ⟨left - 1, by omega⟩
  have hrefused : iterate functionStep (left + 1) gs t =
      .error ⟨.redeclaredFunction g.name, t.following.pos⟩ u := bind_of_error hu
  have hne : s.lexemes ≠ [] := by
    rw [hlex]
    simp [Grammar.Function.lexemes]
  exact ⟨t, u, htakes, (program_eq hne).trans (bind_of_error (hrun.trans hrefused))⟩

end Parser

end MicroGo
