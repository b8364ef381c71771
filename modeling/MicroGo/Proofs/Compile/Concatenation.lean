import MicroGo.Proofs.Assembly.Renumbering
import MicroGo.Proofs.Compile.Legibility
import MicroGo.Proofs.Grammar.Functions
import MicroGo.Proofs.Token.Lines

/-!
# One text below another

Two texts that are both accepted can be put one below the other.  If they share no name of a
function, the code of the whole is the code of the first text and then that of the second one, with
other numbers of labels.  If they do, the whole is refused at the first name in the second text
that stands in the first one too.

Each stage has its part in this: the tokens of the second text are moved down, its functions are
read after those of the first one, and its code is numbered behind that of the first one.  Here
these parts are put together.
-/

namespace MicroGo

open Assembly Grammar

/-! ## Texts with a line end -/

/-- The line end is that of the last text. -/
theorem withLineEnd_append (a : String) {b : String} (hb : b ≠ "") :
    withLineEnd (a ++ b) = a ++ withLineEnd b := by
  have hne : b.toList ≠ [] := fun hnil => hb (String.toList_eq_nil_iff.1 hnil)
  have hends : endsInLineEnd (a ++ b) = endsInLineEnd b := by
    rw [endsInLineEnd, endsInLineEnd, String.toList_append, List.getLast?_append_of_ne_nil _ hne]
  unfold withLineEnd
  rw [hends]
  split
  · rfl
  · exact String.append_assoc

theorem ne_empty_of_compile {source text : String} (h : (compile source).result = .ok text) :
    source ≠ "" := by
  have hempty : (compile "").result.isOk = false := by decide +kernel
  rintro rfl
  rw [h] at hempty
  cases hempty

/-! ## Texts that are accepted -/

/-- The text `source` has the tokens `ahead` in front of its end, and the functions `fs` that they
spell stand for those of the program `p`. -/
structure Accepted (source : String) (ahead : List Token) (fs : List Grammar.Function)
    (p : Program) : Prop where
  scan : ∃ pos, (Token.scan (withLineEnd source)).result = .ok (ahead ++ [.endOfInput pos])
  lexemes : ahead.map Token.toLexeme = functionLexemes fs
  ne_nil : fs ≠ []
  means : List.Forall₂ Grammar.Function.Means fs p.functions
  nodup : (p.functions.map Function.name).Nodup

theorem exists_accepted {source text : String} (h : (compile source).result = .ok text) :
    ∃ ahead fs p, Accepted source ahead fs p ∧ (parse (withLineEnd source)).result = .ok p ∧
      text = render p.code := by
  obtain ⟨tokens, p, htokens, hp, htext⟩ := exists_program h
  have hscan := Traced.result_mapError_eq_ok.1 htokens
  obtain ⟨pos, heq, -⟩ := exists_ahead_of_scan hscan
  obtain ⟨fs, hlex, hne, hmeans⟩ := exists_means_of_parse hp
  refine ⟨_, fs, p, ⟨⟨pos, ?_⟩, hlex, hne, hmeans, (wellFormed_of_parse hp).nodup⟩,
    parse_of_tokens htokens hp, htext⟩
  rw [← heq]
  exact hscan

/-- What the parser has in front of it is the text up to its end. -/
theorem ahead_of_scan {source : String} {ahead : List Token} {pos : Position}
    (h : (Token.scan source).result = .ok (ahead ++ [.endOfInput pos])) :
    (Parser.State.ofTokens (ahead ++ [.endOfInput pos])).ahead = ahead := by
  obtain ⟨pos', htokens, -⟩ := exists_ahead_of_scan h
  exact (List.append_inj' htokens rfl).1.symm

theorem map_toLexeme_below (k : Nat) (ts : List Token) :
    (ts.map (Token.below k)).map Token.toLexeme = ts.map Token.toLexeme := by
  rw [List.map_map]
  rfl

theorem nodup_names_append {fs gs : List Function} (hfs : (fs.map Function.name).Nodup)
    (hgs : (gs.map Function.name).Nodup) (h : ∀ g ∈ gs, g.name ∉ fs.map Function.name) :
    ((fs ++ gs).map Function.name).Nodup := by
  rw [List.map_append, List.nodup_append]
  refine ⟨hfs, hgs, fun x hx y hy hxy => ?_⟩
  obtain ⟨g, hg, rfl⟩ := List.mem_map.1 hy
  exact h g hg (hxy ▸ hx)

/-- Numbers can be read, whichever they are. -/
theorem Assembly.Line.Legible.renumber {line : Line} (h : line.Legible) (k : Nat) :
    (line.renumber k).Legible := by
  have hlabel : ∀ l : Label, l.Legible → (l.renumber k).Legible := by
    intro l hl
    cases l <;> exact hl
  cases line with
  | label l => exact hlabel l h
  | instr i =>
    cases i with
    | jump target =>
      exact List.forall_mem_singleton.2 (hlabel target (h _ List.mem_cons_self))
    | jumpEqual target =>
      exact List.forall_mem_singleton.2 (hlabel target (h _ List.mem_cons_self))
    | _ => exact h
  | operandStyle | codeSection | global name => exact h

section

variable {a b : String} {as bs : List Token} {fs gs : List Grammar.Function} {p q : Program}

/-- The tokens of the second text stand below those of the first one. -/
theorem Accepted.scan_append (ha : Accepted a as fs p) (hb : Accepted b bs gs q) (hne : b ≠ "") :
    ∃ pos, (Token.scan (withLineEnd (withLineEnd a ++ b))).result =
      .ok (as ++ bs.map (Token.below ((withLineEnd a).toList.count '\n')) ++
        [.endOfInput pos]) := by
  obtain ⟨posA, hA⟩ := ha.scan
  obtain ⟨posB, hB⟩ := hb.scan
  rw [withLineEnd_append _ hne]
  exact ⟨_, MicroGo.scan_append (endsInLineEnd_withLineEnd a) hA hB⟩

/-- The functions of the second text follow those of the first one. -/
theorem Accepted.lexemes_append (ha : Accepted a as fs p) (hb : Accepted b bs gs q)
    {source : String} {k : Nat} {pos : Position} (hscan : (Token.scan source).result =
      .ok (as ++ bs.map (Token.below k) ++ [.endOfInput pos])) :
    (Parser.State.ofTokens (as ++ bs.map (Token.below k) ++ [.endOfInput pos])).lexemes =
      functionLexemes (fs ++ gs) := by
  rw [Parser.State.lexemes, ahead_of_scan hscan, List.map_append, map_toLexeme_below, ha.lexemes,
    hb.lexemes, functionLexemes_append]

/-- The names that the tokens show are those of the program. -/
theorem Accepted.map_text (h : Accepted a as fs p) :
    ((functionNames as).map fun t => t.text) = p.functions.map Function.name := by
  rw [(functionNames_of_functions h.lexemes).1, map_name_of_means h.means]

/-- **Texts that share no name.** -/
theorem Accepted.compile_disjoint (ha : Accepted a as fs p) (hb : Accepted b bs gs q) (hne : b ≠ "")
    (hnew : ((p.functions ++ q.functions).map Function.name).Nodup) :
    (compile (withLineEnd a ++ b)).result =
      .ok (render (Program.mk (p.functions ++ q.functions)).code) := by
  obtain ⟨pos, hscan⟩ := ha.scan_append hb hne
  obtain ⟨t, ht⟩ := Parser.program_of_means (List.rel_append ha.means hb.means)
    (List.append_ne_nil_of_left_ne_nil ha.ne_nil gs) (ha.lexemes_append hb hscan) rfl hnew
  refine compile_of_parse (parse_of_tokens (Traced.result_mapError_eq_ok.2 hscan) ?_)
  rw [Program.parse, ht]
  rfl

/-- Of the names that the tokens show, the first one of a set is that of the first function of the
program with a name of this set. -/
theorem Accepted.find?_functionNames (hb : Accepted b bs gs q) {names : List String}
    {before after : List Function} {g : Function} (hsplit : q.functions = before ++ g :: after)
    (hbefore : ∀ f ∈ before, f.name ∉ names) (hg : g.name ∈ names) :
    ∃ us u vs front word name more, gs = us ++ u :: vs ∧
      List.Forall₂ Grammar.Function.Means us before ∧ u.Means g ∧
      bs = front ++ word :: name :: more ∧ front.map Token.toLexeme = functionLexemes us ∧
      name.text = g.name ∧ ((functionNames bs).find? fun t => t.text ∈ names) = some name := by
  have hmeans := hb.means
  rw [hsplit] at hmeans
  obtain ⟨us, u, vs, rfl, hus, hu⟩ := exists_split_of_means hmeans
  obtain ⟨front, word, name, more, rest, rfl, hfront, hname, hnames⟩ :=
    functionNames_of_split hb.lexemes
  have htext : name.text = g.name := hname.trans hu.name_eq.symm
  refine ⟨us, u, vs, front, word, name, more, rfl, hus, hu, rfl, hfront, htext, ?_⟩
  have hnone : ((functionNames front).find? fun t => t.text ∈ names) = none := by
    rw [List.find?_eq_none]
    intro t ht
    have hmem : t.text ∈ before.map Function.name := by
      rw [map_name_of_means hus, ← (functionNames_of_functions hfront).1]
      exact List.mem_map_of_mem ht
    obtain ⟨f, hf, heq⟩ := List.mem_map.1 hmem
    rw [← heq]
    simpa using hbefore f hf
  rw [hnames, List.find?_append, hnone, Option.none_or, List.find?_cons_of_pos]
  rw [htext]
  exact decide_eq_true hg

/-- **Texts that share a name.**  The whole is refused at the first name of the second text that
stands in the first one too. -/
theorem Accepted.compile_clash (ha : Accepted a as fs p) (hb : Accepted b bs gs q) (hne : b ≠ "")
    {before after : List Function} {g : Function} (hsplit : q.functions = before ++ g :: after)
    (hbefore : ∀ f ∈ before, f.name ∉ p.functions.map Function.name)
    (hg : g.name ∈ p.functions.map Function.name) :
    ∃ t, ((functionNames bs).find? fun t => t.text ∈ p.functions.map Function.name) = some t ∧
      (compile (withLineEnd a ++ b)).result = .error (.rejected
        (Failure.diagnostic (withLineEnd (withLineEnd a ++ b))
          ⟨.redeclaredFunction t.text, t.pos.below ((withLineEnd a).toList.count '\n')⟩)) := by
  obtain ⟨us, u, vs, front, word, name, more, rfl, hus, hu, rfl, hfront, htext, hfind⟩ :=
    hb.find?_functionNames hsplit hbefore hg
  obtain ⟨pos, hscan⟩ := ha.scan_append hb hne
  generalize (withLineEnd a).toList.count '\n' = k at hscan ⊢
  have hahead := ahead_of_scan hscan
  have hlex := ha.lexemes_append hb hscan
  rw [← List.append_assoc, functionLexemes_append, functionLexemes_cons] at hlex
  have hnew : ((p.functions ++ before).map Function.name).Nodup := by
    have hnodup := hb.nodup
    rw [hsplit, List.map_append] at hnodup
    exact nodup_names_append ha.nodup (List.nodup_append.1 hnodup).1 hbefore
  obtain ⟨t, s, htakes, hrefused⟩ := Parser.program_of_clash (List.rel_append ha.means hus) hu hlex
    rfl hnew (by rw [List.map_append]; exact List.mem_append_left _ hg)
  -- the tokens that were taken are those of the first text and the front of the second one
  have hplace : t.following = name.below k := by
    have htaken : (as ++ front.map (Token.below k)).map Token.toLexeme =
        functionLexemes (fs ++ us) := by
      rw [List.map_append, map_toLexeme_below, ha.lexemes, hfront, functionLexemes_append]
    have hleft : as ++ (front ++ word :: name :: more).map (Token.below k) =
        as ++ front.map (Token.below k) ++
          word.below k :: name.below k :: more.map (Token.below k) := by
      simp
    exact htakes.following_eq (hahead.trans hleft) htaken
  refine ⟨name, hfind, ?_⟩
  refine compile_eq_error.2 (.inr ⟨_, Traced.result_mapError_eq_ok.2 hscan, ?_⟩)
  refine Traced.result_mapError_eq_error.2 ⟨_, ?_, rfl⟩
  rw [Program.parse, hrefused, hplace, htext]
  rfl

/-- The end of the input is not a name. -/
theorem Accepted.functionNames_eq (h : Accepted a as fs p) (pos : Position) :
    functionNames (as ++ [.endOfInput pos]) = functionNames as := by
  rw [(functionNames_of_functions h.lexemes).2]
  exact List.append_nil _

end

/-- **Compiling a text below another one.**  Let both texts be accepted.  If no function name occurs
in both, the whole is the text of the first one and then that of the second one, without its two
lines at the head and with all numbers of labels increased by the number of conditionals and loops
of the first text; and this is also how their listings are read.  If some name does, the whole is
refused at the first such name of the second text, as many lines further down as the first text has
line ends. -/
theorem compile_append {a b textA textB : String} (ha : (compile a).result = .ok textA)
    (hb : (compile b).result = .ok textB) :
    ∃ p q tokens, (parse (withLineEnd a)).result = .ok p ∧ (parse (withLineEnd b)).result = .ok q ∧
      (Token.scan (withLineEnd b)).result = .ok tokens ∧
      textA = render p.code ∧
      textB = render [.operandStyle, .codeSection] ++ render (q.code.drop 2) ∧
      read? textA = some p.code ∧ read? textB = some q.code ∧
      read? (textA ++ render ((q.code.drop 2).map (Line.renumber p.controls.length))) =
        some (p.code ++ (q.code.drop 2).map (Line.renumber p.controls.length)) ∧
      ((functionNames tokens).map fun t => t.text) = q.functions.map Function.name ∧
      ((∀ f ∈ p.functions, ∀ g ∈ q.functions, f.name ≠ g.name) →
        (compile (withLineEnd a ++ b)).result =
          .ok (textA ++ render ((q.code.drop 2).map (Line.renumber p.controls.length)))) ∧
      (∀ f ∈ p.functions, ∀ g ∈ q.functions, f.name = g.name →
        ∃ t, ((functionNames tokens).find? fun t => t.text ∈ p.functions.map Function.name) =
            some t ∧
          (compile (withLineEnd a ++ b)).result = .error (.rejected
            (.about (withLineEnd a ++ withLineEnd b) .declaration
              (t.pos.below ((withLineEnd a).toList.count '\n'))
              ("function " ++ t.text ++ " redeclared")))) := by
  obtain ⟨as, fs, p, hA, hp, htextA⟩ := exists_accepted ha
  obtain ⟨bs, gs, q, hB, hq, htextB⟩ := exists_accepted hb
  have hne := ne_empty_of_compile hb
  obtain ⟨pos, hscan⟩ := hB.scan
  have htail : q.code.drop 2 = Program.codes 0 q.functions := rfl
  have hreadA := read?_of_parse_text hp
  have hreadB := read?_of_parse_text hq
  rw [← htextA] at hreadA
  rw [← htextB] at hreadB
  refine ⟨p, q, _, hp, hq, hscan, htextA, ?_, hreadA, hreadB, ?_, ?_, ?_, ?_⟩
  · rw [htextB, ← render_append]
    rfl
  · rw [htextA, ← render_append]
    refine read?_render (List.forall_mem_append.2 ⟨(read?_eq_some_iff.1 hreadA).2, ?_⟩)
    refine List.forall_mem_map.2 fun line hline => Line.Legible.renumber ?_ _
    exact (read?_eq_some_iff.1 hreadB).2 line (List.mem_of_mem_drop hline)
  · rw [hB.functionNames_eq, hB.map_text]
  · intro hdisjoint
    have hnew : ((p.functions ++ q.functions).map Function.name).Nodup := by
      refine nodup_names_append hA.nodup hB.nodup fun g hg hmem => ?_
      obtain ⟨f, hf, hname⟩ := List.mem_map.1 hmem
      exact hdisjoint f hf g hg hname
    rw [hA.compile_disjoint hB hne hnew, Program.code_append, render_append, htextA, htail]
  · intro f hf g hg hname
    have hshared : (q.functions.find? fun g => g.name ∈ p.functions.map Function.name).isSome :=
      List.find?_isSome.2 ⟨g, hg, decide_eq_true (List.mem_map.2 ⟨f, hf, hname⟩)⟩
    obtain ⟨first, hfirst⟩ := Option.isSome_iff_exists.1 hshared
    obtain ⟨hmem, before, after, hsplit, hbefore⟩ := List.find?_eq_some_iff_append.1 hfirst
    obtain ⟨t, hfind, hrefused⟩ := hA.compile_clash hB hne hsplit
      (fun f hf => by simpa using hbefore f hf) (of_decide_eq_true hmem)
    rw [withLineEnd_append _ hne] at hrefused
    rw [hB.functionNames_eq]
    exact ⟨t, hfind, hrefused⟩

/-- A conditional below a loop, and then two functions of which the second one has a name of the
first text. -/
theorem compile_append_loop :
    (∃ textA q,
      (compile "func f(n int) \x7b for n < 9 \x7b n = n + 1 \x7d; return n \x7d").result =
        .ok textA ∧
      (parse (withLineEnd "func g(n int) \x7b if n \x7b return f(n) \x7d \x7d")).result = .ok q ∧
      (compile (withLineEnd "func f(n int) \x7b for n < 9 \x7b n = n + 1 \x7d; return n \x7d" ++
        "func g(n int) \x7b if n \x7b return f(n) \x7d \x7d")).result =
          .ok (textA ++ render ((q.code.drop 2).map (Line.renumber 1)))) ∧
    (compile (withLineEnd "func f(n int) \x7b for n < 9 \x7b n = n + 1 \x7d; return n \x7d" ++
      "func g() \x7b\x7d\nfunc f() \x7b\x7d")).result =
      .error (.rejected ⟨.declaration, ⟨3, 6⟩, "func f() \x7b\x7d", "function f redeclared"⟩) := by
  have hreadA : ((parse (withLineEnd
      "func f(n int) \x7b for n < 9 \x7b n = n + 1 \x7d; return n \x7d")).result.toOption.map
        fun p => (p.functions.map Function.name, p.controls.length)) = some (["f"], 1) := by
    decide +kernel
  have hreadB : ((parse (withLineEnd
      "func g(n int) \x7b if n \x7b return f(n) \x7d \x7d")).result.toOption.map
        fun q => q.functions.map Function.name) = some ["g"] := by
    decide +kernel
  have hreadC : ((parse (withLineEnd
      "func g() \x7b\x7d\nfunc f() \x7b\x7d")).result.toOption.map
        fun q => q.functions.map Function.name) = some ["g", "f"] := by
    decide +kernel
  have hname : ((Token.scan (withLineEnd
      "func g() \x7b\x7d\nfunc f() \x7b\x7d")).result.toOption.map
        fun tokens => (functionNames tokens).find? fun t => t.text ∈ ["f"]) =
      some (some ⟨⟨.ident, "f"⟩, ⟨2, 6⟩⟩) := by
    decide +kernel
  obtain ⟨pA, hpA, hsizeA⟩ := Option.map_eq_some_iff.1 hreadA
  obtain ⟨qB, hqB, hnamesB⟩ := Option.map_eq_some_iff.1 hreadB
  obtain ⟨qC, hqC, hnamesC⟩ := Option.map_eq_some_iff.1 hreadC
  obtain ⟨hnamesA, hcontrolsA⟩ := Prod.mk.inj hsizeA
  have hA := compile_of_parse (eq_ok_of_toOption hpA)
  constructor
  · obtain ⟨p, q, tokens, hp, hq, -, -, -, -, -, -, -, hdisjoint, -⟩ :=
      compile_append hA (compile_of_parse (eq_ok_of_toOption hqB))
    obtain rfl := Except.ok.inj ((eq_ok_of_toOption hpA).symm.trans hp)
    refine ⟨_, q, hA, hq, ?_⟩
    rw [hdisjoint, hcontrolsA]
    obtain rfl := Except.ok.inj ((eq_ok_of_toOption hqB).symm.trans hq)
    intro f hf g hg hfg
    have hmemA := List.mem_map_of_mem (f := Function.name) hf
    have hmemB := List.mem_map_of_mem (f := Function.name) hg
    rw [hnamesA, List.mem_singleton] at hmemA
    rw [hnamesB, List.mem_singleton] at hmemB
    rw [hmemA, hmemB] at hfg
    exact absurd hfg (by decide)
  · obtain ⟨p, q, tokens, hp, hq, hscan, -, -, -, -, -, -, -, hclash⟩ :=
      compile_append hA (compile_of_parse (eq_ok_of_toOption hqC))
    obtain rfl := Except.ok.inj ((eq_ok_of_toOption hpA).symm.trans hp)
    obtain rfl := Except.ok.inj ((eq_ok_of_toOption hqC).symm.trans hq)
    obtain ⟨f, hf, hfname⟩ : ∃ f ∈ pA.functions, f.name = "f" :=
      List.mem_map.1 (by rw [hnamesA]; decide)
    obtain ⟨g, hg, hgname⟩ : ∃ g ∈ qC.functions, g.name = "f" :=
      List.mem_map.1 (by rw [hnamesC]; decide)
    obtain ⟨t, ht, hrefused⟩ := hclash f hf g hg (hfname.trans hgname.symm)
    rw [hscan] at hname
    rw [hnamesA] at ht
    obtain rfl := Option.some.inj ((Option.some.inj hname).symm.trans ht)
    rw [hrefused]
    decide +kernel

end MicroGo
