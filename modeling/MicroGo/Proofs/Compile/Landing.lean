import MicroGo.Proofs.Compile.Legibility

/-!
# Every jump lands

The labels of a compiled text are different, each jump has its label in the same function, and the
numbers of the labels are those of the conditionals and loops in the order of the text.

Most of this is about code and stands there.  Two facts come from the earlier stages.  The name of a
function is a word of the text, so it has no dot and is never the name of a label inside a function
(`Grammar.isSymbol_name_of_parse`).  And the head of a loop has simple statements only, so the order
of emission is that of the text (`Grammar.plainPosts_of_parse`).
-/

namespace MicroGo

open Assembly

namespace Grammar

/-! ## Heads of loops -/

/-- A simple statement takes no number. -/
theorem Simple.Denotes.plain {t : Simple} {past : List Mark} {s : Stmt} (h : t.Denotes past s) :
    s.PlainPosts ∧ s.controls = [] := by
  unfold Simple.Denotes at h
  cases hright : t.right with
  | none =>
      rw [hright] at h
      obtain ⟨e, -, rfl⟩ := h
      rw [Stmt.PlainPosts, Stmt.controls]
      exact ⟨trivial, rfl⟩
  | some right =>
      rw [hright] at h
      obtain ⟨id, e, -, -, rfl⟩ := h
      rw [Stmt.PlainPosts, Stmt.controls]
      exact ⟨trivial, rfl⟩

theorem plain_optSimple {o : Option Simple} {past : List Mark} {s : Option Stmt}
    (h : OptDenotes Simple.Denotes o past s) :
    Stmt.OptPlainPosts s ∧ Stmt.optControls s = [] := by
  cases o with
  | none =>
      obtain rfl : s = none := h
      rw [Stmt.OptPlainPosts, Stmt.optControls]
      exact ⟨trivial, rfl⟩
  | some t =>
      obtain ⟨s', hs', rfl⟩ := h
      rw [Stmt.OptPlainPosts, Stmt.optControls]
      exact hs'.plain

theorem Local.Denotes.plain {t : Local} {past : List Mark} {s : Stmt} (h : t.Denotes past s) :
    s.PlainPosts := by
  cases t with
  | typed name value =>
      obtain ⟨e, -, rfl⟩ := h
      rw [Stmt.PlainPosts]
      trivial
  | inferred name value =>
      obtain ⟨e, -, rfl⟩ := h
      rw [Stmt.PlainPosts]
      trivial

theorem LoopHead.Denotes.plain {t : LoopHead} {past : List Mark} {init post : Option Stmt}
    {cond : Option Expr} (h : t.Denotes past (init, cond, post)) :
    Stmt.OptPlainPosts init ∧ Stmt.OptPlainPosts post ∧ Stmt.optControls post = [] := by
  have hnone : Stmt.OptPlainPosts none ∧ Stmt.OptPlainPosts none ∧ Stmt.optControls none = [] := by
    rw [Stmt.OptPlainPosts, Stmt.optControls]
    exact ⟨trivial, trivial, rfl⟩
  cases t with
  | forever =>
      cases h
      exact hnone
  | «while» c =>
      obtain ⟨e, -, heq⟩ := h
      cases heq
      exact hnone
  | clauses i c p =>
      obtain ⟨i', c', p', hinit, -, hpost, heq⟩ := h
      cases heq
      exact ⟨(plain_optSimple hinit).1, plain_optSimple hpost⟩

mutual

theorem Statement.Denotes.plain : ∀ {t : Statement} {past : List Mark} {s : Stmt},
    t.Denotes past s → s.PlainPosts
  | .ret value, past, s, h => by
      rw [Statement.Denotes] at h
      obtain ⟨e, -, rfl⟩ := h
      rw [Stmt.PlainPosts]
      trivial
  | .declare decl, past, s, h => by
      rw [Statement.Denotes] at h
      exact Local.Denotes.plain h
  | .branch cases, past, s, h => by
      rw [Statement.Denotes] at h
      exact Conditional.Denotes.plain h
  | .loop head body, past, s, h => by
      rw [Statement.Denotes] at h
      obtain ⟨init, cond, post, b, hhead, hbody, rfl⟩ := h
      obtain ⟨hinit, hpost, hcontrols⟩ := hhead.plain
      rw [Stmt.PlainPosts]
      exact ⟨hinit, Body.Denotes.plain hbody, hpost, hcontrols⟩
  | .block body, past, s, h => by
      rw [Statement.Denotes] at h
      obtain ⟨b, hbody, rfl⟩ := h
      rw [Stmt.PlainPosts]
      exact Body.Denotes.plain hbody
  | .simple stmt, past, s, h => by
      rw [Statement.Denotes] at h
      exact (Simple.Denotes.plain h).1

theorem Conditional.Denotes.plain : ∀ {t : Conditional} {past : List Mark} {s : Stmt},
    t.Denotes past s → s.PlainPosts
  | .mk init cond body other, past, s, h => by
      rw [Conditional.Denotes] at h
      obtain ⟨i, c, b, o, hinit, -, hbody, hother, rfl⟩ := h
      rw [Stmt.PlainPosts]
      exact ⟨(plain_optSimple hinit).1, Body.Denotes.plain hbody, Otherwise.Denotes.plain hother⟩

theorem Otherwise.Denotes.plain : ∀ {t : Otherwise} {past : List Mark} {s : Option Stmt},
    t.Denotes past s → Stmt.OptPlainPosts s
  | .none, past, s, h => by
      rw [Otherwise.Denotes] at h
      rw [h, Stmt.OptPlainPosts]
      trivial
  | .elseIf cases, past, s, h => by
      rw [Otherwise.Denotes] at h
      obtain ⟨s', hs', rfl⟩ := h
      rw [Stmt.OptPlainPosts]
      exact Conditional.Denotes.plain hs'
  | .elseBlock body, past, s, h => by
      rw [Otherwise.Denotes] at h
      obtain ⟨b, hbody, rfl⟩ := h
      rw [Stmt.OptPlainPosts, Stmt.PlainPosts]
      exact Body.Denotes.plain hbody

/-- Nothing that takes a number stands behind the rounds of a loop. -/
theorem Body.Denotes.plain : ∀ {t : Body} {past : List Mark} {ss : List Stmt},
    t.Denotes past ss → Stmt.AllPlainPosts ss
  | .close, past, ss, h => by
      rw [Body.Denotes] at h
      rw [h, Stmt.AllPlainPosts]
      trivial
  | .skip rest, past, ss, h => by
      rw [Body.Denotes] at h
      exact Body.Denotes.plain h
  | .last stmt, past, ss, h => by
      rw [Body.Denotes] at h
      obtain ⟨s, hs, rfl⟩ := h
      rw [Stmt.AllPlainPosts, Stmt.AllPlainPosts]
      exact ⟨Statement.Denotes.plain hs, trivial⟩
  | .next stmt rest, past, ss, h => by
      rw [Body.Denotes] at h
      obtain ⟨s, ss', hs, hss, rfl⟩ := h
      rw [Stmt.AllPlainPosts]
      exact ⟨Statement.Denotes.plain hs, Body.Denotes.plain hss⟩

end

theorem plainPosts_of_parse {tokens : List Token} {p : MicroGo.Program}
    (h : (Program.parse tokens).result = .ok p) {f : MicroGo.Function} (hf : f ∈ p.functions) :
    Stmt.AllPlainPosts f.body := by
  obtain ⟨t, hdenotes, -⟩ := exists_denotes_of_parse h hf
  exact hdenotes.body.plain

end Grammar

/-! ## Labels of a compiled text -/

namespace Program

/-- **What holds of the labels in the listing of a program.** -/
structure JumpsLand (p : Program) (code : List Line) : Prop where
  /-- All labels have different names. -/
  nodup : ((labels code).map Label.name).Nodup
  /-- The listing is a head and the functions in order, each with its first free number. -/
  split : code = [.operandStyle, .codeSection] ++
    (Program.sections 0 p.functions).flatMap fun part => part.1.code part.2
  /-- The label of each jump is defined in the same function, and nowhere else. -/
  lands : ∀ part ∈ Program.sections 0 p.functions, ∀ i t, .instr i ∈ part.1.code part.2 →
    i.target? = some t → ((labels (part.1.code part.2)).map Label.name).count t.name = 1 ∧
      ((labels code).map Label.name).count t.name = 1
  /-- The labels are those of the functions, and those of the conditionals and loops with their
  places in the order of the text as numbers. -/
  perm : (labels code).Perm
    (p.functions.flatMap (fun f => [.entry f.name, .exit f.name]) ++
      p.controls.zipIdx.flatMap fun c => c.1.ownLabels c.2)
  /-- The numbers are those below the number of conditionals and loops. -/
  number : ∀ n, (∃ l ∈ labels code, l.number? = some n) ↔ n < p.controls.length
  /-- The code of each conditional and loop has just its own labels of its number. -/
  own : ∀ n c, p.controls[n]? = some c → ∃ part ∈ Program.sections 0 p.functions,
    c.code part.1 n <:+: part.1.code part.2 ∧
      ((labels (c.code part.1 n)).filter fun l => l.number? = some n).Perm (c.ownLabels n)

end Program

theorem nodup_names {p : Program} (hnames : (p.functions.map Function.name).Nodup)
    (hsymbol : ∀ f ∈ p.functions, isSymbol f.name.toList) :
    ((labels p.code).map Label.name).Nodup := by
  refine List.Nodup.map_on (fun a ha b hb hab => ?_) (nodup_labels_code hnames)
  exact Label.name_inj (legible_of_mem_labels hsymbol ha).dotless
    (legible_of_mem_labels hsymbol hb).dotless hab

/-- The labels with a number are those of the conditionals and loops. -/
theorem exists_number_iff {p : Program} (hplain : ∀ f ∈ p.functions, Stmt.AllPlainPosts f.body)
    (n : Nat) : (∃ l ∈ labels p.code, l.number? = some n) ↔ n < p.controls.length := by
  have hperm := perm_labels_codes hplain 0
  constructor
  · rintro ⟨l, hl, hn⟩
    rcases List.mem_append.1 (hperm.mem_iff.1 hl) with hl | hl
    · obtain ⟨f, -, hl⟩ := List.mem_flatMap.1 hl
      rcases List.mem_cons.1 hl with rfl | hl
      · cases hn
      · rw [List.mem_singleton.1 hl] at hn
        cases hn
    · obtain ⟨k, hk, hl⟩ := exists_number_of_mem_labelsFrom hl
      rw [hn, Option.some_inj, Nat.zero_add] at hl
      rwa [hl]
  · intro hn
    have hc : p.controls[n]? = some p.controls[n] := List.getElem?_eq_getElem hn
    obtain ⟨f, hf, hmem⟩ := List.mem_flatMap.1 (List.getElem_mem hn)
    have hdone := Stmt.done_mem_of_mem_allControls (0 + n) hmem
    refine ⟨.done (0 + n), hperm.mem_iff.2 (List.mem_append_right _ ?_), by rw [Nat.zero_add]; rfl⟩
    exact ownLabels_subset_labelsFrom hc hdone

theorem jumpsLand {p : Program} (hp : p.WellFormed)
    (hsymbol : ∀ f ∈ p.functions, isSymbol f.name.toList)
    (hplain : ∀ f ∈ p.functions, Stmt.AllPlainPosts f.body) : p.JumpsLand p.code := by
  have hnodup := nodup_names hp.nodup hsymbol
  have hsplit : p.code = [.operandStyle, .codeSection] ++
      (Program.sections 0 p.functions).flatMap fun part => part.1.code part.2 := by
    rw [Program.code, codes_eq_flatMap]
  refine ⟨hnodup, hsplit, ?_, perm_labels_codes hplain 0, exists_number_iff hplain, ?_⟩
  · intro part hpart i t hi ht
    have hinside := List.mem_map_of_mem (f := Label.name)
      (leadTo_function part.1 part.2 i hi t ht)
    -- the labels of the function are among those of the program, and these have different names
    have hsub : ((labels (part.1.code part.2)).map Label.name).Sublist
        ((labels p.code).map Label.name) := by
      obtain ⟨before, after, hparts⟩ := List.append_of_mem hpart
      refine List.Sublist.map _ (List.Sublist.filterMap _ (List.IsInfix.sublist ?_))
      rw [hsplit, hparts, List.flatMap_append, List.flatMap_cons, ← List.append_assoc]
      exact List.infix_append' _ _ _
    exact ⟨List.count_eq_one_of_mem (hnodup.sublist hsub) hinside,
      List.count_eq_one_of_mem hnodup (hsub.subset hinside)⟩
  · intro n c hc
    have hown := exists_section hplain hc (n := 0)
    rwa [Nat.zero_add] at hown

/-- **Labels are unique and every jump lands**, in the listing that is read from a compiled text. -/
theorem compile_jumpsLand {source text : String} (h : (compile source).result = .ok text) :
    ∃ p code, (parse (withLineEnd source)).result = .ok p ∧ read? text = some code ∧
      text = render code ∧ p.JumpsLand code := by
  obtain ⟨tokens, p, htokens, hp, rfl⟩ := exists_program h
  have hscan := Traced.result_mapError_eq_ok.1 htokens
  refine ⟨p, p.code, parse_of_tokens htokens hp, read?_of_parse htokens hp, rfl, ?_⟩
  exact jumpsLand (wellFormed_of_parse hp) (fun f => Grammar.isSymbol_name_of_parse hscan hp)
    fun f => Grammar.plainPosts_of_parse hp

/-- A loop in a conditional, a chain of conditionals, and one more loop in another function. -/
theorem compile_jumpsLand_nested :
    ∃ text code, ∃ p : Program,
      (compile ("func f(n int) \x7b if n \x7b for n < 9 \x7b return 1 \x7d \x7d " ++
        "else if 2 \x7b \x7d \x7d\nfunc g() \x7b for \x7b \x7d \x7d")).result = .ok text ∧
      read? text = some code ∧ p.controls.length = 4 ∧ p.JumpsLand code := by
  have hread : ((parse (withLineEnd
      ("func f(n int) \x7b if n \x7b for n < 9 \x7b return 1 \x7d \x7d " ++
        "else if 2 \x7b \x7d \x7d\nfunc g() \x7b for \x7b \x7d \x7d"))).result.toOption.map
          fun p => p.controls.length) =
      some 4 := by
    decide +kernel
  obtain ⟨p, hp, hlength⟩ := Option.map_eq_some_iff.1 hread
  have hcompile := compile_of_parse (eq_ok_of_toOption hp)
  obtain ⟨q, code, hq, hcode, -, hlands⟩ := compile_jumpsLand hcompile
  obtain rfl : p = q := Except.ok.inj ((eq_ok_of_toOption hp).symm.trans hq)
  exact ⟨_, code, p, hcompile, hcode, hlength, hlands⟩

end MicroGo
