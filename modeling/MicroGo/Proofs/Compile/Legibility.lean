import MicroGo.Proofs.Assembly.Reading
import MicroGo.Proofs.Compile.Marking
import MicroGo.Proofs.Scope.Lexical
import MicroGo.Proofs.Token.Scanning

/-!
# Compiled texts can be read

What is said about compiled code is said about a listing, while compilation gives a text.  The two
are tied by reading: from the text of every compiled program its listing is read back.  This is so
because all names in the listing are words of the source text.  The functions of the program are
named by words, the labels are made of these names and of numbers, a jump leads to a label, and a
call instruction calls the function that a call of the source text names.
-/

namespace MicroGo

open Assembly

/-- A name that can be written in a text is a symbol. -/
theorem Lexeme.Written.isSymbol_of_ident {l : Lexeme} (h : l.Written) (hkind : l.kind = .ident) :
    isSymbol l.text.toList := by
  cases h with
  | @name c cs start parts other =>
    rw [String.toList_ofList]
    exact isSymbol_iff.2 ⟨c, cs, rfl, start, parts⟩
  | num digit digits => cases hkind
  | keyword mem => cases hkind
  | equals start => cases hkind
  | sign sign => cases hkind

namespace Grammar

/-! ## Names of functions -/

theorem exists_denotes_of_mem {ts : List Function} {fs : List MicroGo.Function}
    (h : List.Forall₂ Function.Denotes ts fs) {f : MicroGo.Function} (hf : f ∈ fs) :
    ∃ t ∈ ts, t.Denotes f := by
  induction h with
  | nil => exact absurd hf List.not_mem_nil
  | cons hhead _ ih =>
      rcases List.mem_cons.1 hf with rfl | hf
      · exact ⟨_, List.mem_cons_self, hhead⟩
      · obtain ⟨t, ht, hdenotes⟩ := ih hf
        exact ⟨t, List.mem_cons_of_mem _ ht, hdenotes⟩

/-- Each function of a program that was read is denoted by a tree whose lexemes were read. -/
theorem exists_denotes_of_parse {tokens : List Token} {p : MicroGo.Program}
    (h : (Program.parse tokens).result = .ok p) {f : MicroGo.Function} (hf : f ∈ p.functions) :
    ∃ t : Function, t.Denotes f ∧ ∀ l ∈ t.lexemes, l ∈ lexemesOf tokens := by
  obtain ⟨tree, hspells, htree⟩ := exists_elaborate h
  obtain ⟨t, ht, hdenotes⟩ := exists_denotes_of_mem (program_eq_ok htree).2 hf
  refine ⟨t, hdenotes, fun l hl => ?_⟩
  rw [show lexemesOf tokens = functionLexemes tree.functions from hspells, functionLexemes]
  exact List.mem_flatMap.2 ⟨t, ht, List.mem_append_left _ hl⟩

theorem mem_lexemes_name (t : Function) : ⟨.ident, t.name⟩ ∈ t.lexemes := by
  simp [Function.lexemes, Function.signature]

section

variable {source : String} {tokens : List Token} {p : MicroGo.Program}

/-- The name of a function is a word of the text. -/
theorem isSymbol_name_of_parse (hscan : (Token.scan source).result = .ok tokens)
    (h : (Program.parse tokens).result = .ok p) {f : MicroGo.Function} (hf : f ∈ p.functions) :
    isSymbol f.name.toList := by
  obtain ⟨t, hdenotes, hlexemes⟩ := exists_denotes_of_parse h hf
  rw [hdenotes.name]
  exact (written_of_mem_lexemesOf hscan (hlexemes _ (mem_lexemes_name t))).isSymbol_of_ident rfl

/-! ## Names of callees -/

/-- What a call of the text names stands in the text. -/
theorem Call.StandsIn.mem {ls : List Lexeme} {c : Call} (h : c.StandsIn ls) :
    ⟨.ident, c.callee⟩ ∈ ls :=
  List.mem_of_getElem? h.1.getElem?

/-- The callee of a call instruction is a word of the text: the instruction makes a call that stands
there. -/
theorem isSymbol_callee_of_parse (hscan : (Token.scan source).result = .ok tokens)
    (h : (Program.parse tokens).result = .ok p) {callee : String}
    (hcall : .instr (.call callee) ∈ Program.codes 0 p.functions) : isSymbol callee.toList := by
  obtain ⟨tree, hspells, htree⟩ := exists_elaborate h
  obtain ⟨ms, hms⟩ := exists_markedFunctions (program_eq_ok htree).2 0 0
  rw [← hms.lines] at hcall
  obtain ⟨⟨line, mark⟩, hmem, hline⟩ := List.mem_map.1 hcall
  obtain rfl : line = .instr (.call callee) := hline
  obtain ⟨c, rfl, rfl⟩ := Option.map_eq_some_iff.1 (hms.agrees _ hmem).symm
  have hc : c ∈ madeCalls ms := List.mem_filterMap.2 ⟨_, hmem, rfl⟩
  rw [hms.marks] at hc
  obtain ⟨o, ho, hc⟩ := List.mem_flatMap.1 hc
  have hsits : SitsAt (lexemesOf tokens) 0 (functionLexemes tree.functions) :=
    ⟨[], [], rfl, by rw [List.append_nil, List.nil_append]; exact hspells⟩
  have hplaced := o.expression.placed o.past ((spread_functions _ hsits).sits o ho)
  have hstands := hplaced.1 c (o.arranged.perm.subset hc)
  exact (written_of_mem_lexemesOf hscan hstands.mem).isSymbol_of_ident rfl

end

end Grammar

/-! ## Lines -/

mutual

/-- No function begins inside a statement. -/
theorem global_notMem_stmt (f : Function) (name : String) :
    ∀ (s : Stmt) (n : Nat), .global name ∉ s.code f n
  | .expr value, n => by simp [Stmt.code]
  | .assign target value, n => by simp [Stmt.code]
  | .ret value, n => by simp [Stmt.code]
  | .block body, n => by
      rw [Stmt.code]
      exact global_notMem_stmts f name body n
  | .branch init cond body other, n => by
      simp [Stmt.code, global_notMem_optStmt f name init, global_notMem_stmts f name body,
        global_notMem_optStmt f name other]
  | .loop init cond post body, n => by
      simp [Stmt.code, global_notMem_optStmt f name init, global_notMem_stmts f name body,
        global_notMem_optStmt f name post]

theorem global_notMem_stmts (f : Function) (name : String) :
    ∀ (ss : List Stmt) (n : Nat), .global name ∉ Stmt.codes f n ss
  | [], n => by simp [Stmt.codes]
  | s :: ss, n => by
      simp [Stmt.codes, global_notMem_stmt f name s, global_notMem_stmts f name ss]

theorem global_notMem_optStmt (f : Function) (name : String) :
    ∀ (s : Option Stmt) (n : Nat), .global name ∉ Stmt.optCode f n s
  | none, n => by simp [Stmt.optCode]
  | some s, n => by
      rw [Stmt.optCode]
      exact global_notMem_stmt f name s n

end

/-- Where a function is announced, it is one of the program. -/
theorem exists_of_global_mem {fs : List Function} {n : Nat} {name : String}
    (h : .global name ∈ Program.codes n fs) : ∃ f ∈ fs, name = f.name := by
  induction fs generalizing n with
  | nil => exact absurd h List.not_mem_nil
  | cons f fs ih =>
    rw [Program.codes, List.mem_append] at h
    rcases h with h | h
    · refine ⟨f, List.mem_cons_self, ?_⟩
      simpa [Function.code, global_notMem_stmts] using h
    · obtain ⟨g, hg, hname⟩ := ih h
      exact ⟨g, List.mem_cons_of_mem f hg, hname⟩

/-- A label with a number can be read. -/
theorem Assembly.Label.legible_of_number? {l : Label} {id : Nat} (h : l.number? = some id) :
    l.Legible := by
  cases l with
  | entry f | exit f => cases h
  | begin n | otherwise n | done n => trivial

/-- If the functions have symbols as names, then all labels can be read. -/
theorem legible_of_mem_labels {fs : List Function} (h : ∀ f ∈ fs, isSymbol f.name.toList) {n : Nat}
    {l : Label} (hl : l ∈ labels (Program.codes n fs)) : l.Legible := by
  rcases mem_labels_codes hl with ⟨id, hid, -⟩ | ⟨f, hf, rfl | rfl⟩
  · exact Label.legible_of_number? hid
  · exact h f hf
  · exact h f hf

/-- What an instruction jumps to is a label of the code. -/
theorem target_mem_labels {fs : List Function} {n : Nat} {i : Instr} {l : Label}
    (h : .instr i ∈ Program.codes n fs) (hl : i.target? = some l) :
    l ∈ labels (Program.codes n fs) := by
  induction fs generalizing n with
  | nil => exact absurd h List.not_mem_nil
  | cons f fs ih =>
    rw [Program.codes, List.mem_append] at h
    rw [Program.codes, labels_append, List.mem_append]
    exact h.imp (fun h => leadTo_function f n i h l hl) ih

/-- An instruction can be read if its label can be read and its callee is a symbol. -/
theorem Assembly.Instr.legible_of {i : Instr} (htarget : ∀ l, i.target? = some l → l.Legible)
    (hcallee : ∀ callee, i = .call callee → isSymbol callee.toList) : i.Legible := by
  cases i with
  | jump target => exact List.forall_mem_singleton.2 (htarget target rfl)
  | jumpEqual target => exact List.forall_mem_singleton.2 (htarget target rfl)
  | call callee => exact List.forall_mem_singleton.2 (hcallee callee rfl)
  | _ => simp [Instr.Legible, Instr.parts, Instr.Operand.Legible]

/-! ## Texts -/

/-- **All lines of a program that was read from a text can be read.** -/
theorem legible_of_parse {source : String} {tokens : List Token} {p : Program}
    (hscan : (Token.scan source).result = .ok tokens) (h : (Program.parse tokens).result = .ok p) :
    ∀ line ∈ p.code, line.Legible := by
  have hnames : ∀ f ∈ p.functions, isSymbol f.name.toList :=
    fun f hf => Grammar.isSymbol_name_of_parse hscan h hf
  refine List.forall_mem_append.2 ⟨by simp [Line.Legible], fun line hline => ?_⟩
  cases line with
  | operandStyle => trivial
  | codeSection => trivial
  | global name =>
    obtain ⟨f, hf, rfl⟩ := exists_of_global_mem hline
    exact hnames f hf
  | label l => exact legible_of_mem_labels hnames (List.mem_filterMap.2 ⟨_, hline, rfl⟩)
  | instr i =>
    refine Instr.legible_of (fun l hl => ?_) ?_
    · exact legible_of_mem_labels hnames (target_mem_labels hline hl)
    · rintro callee rfl
      exact Grammar.isSymbol_callee_of_parse hscan h hline

/-- **The text of a compiled program shows its listing.** -/
theorem read?_of_parse {source : String} {tokens : List Token} {p : Program}
    (htokens : (tokensOf source).result = .ok tokens) (hp : (Program.parse tokens).result = .ok p) :
    read? (render p.code) = some p.code :=
  read?_render (legible_of_parse (Traced.result_mapError_eq_ok.1 htokens) hp)

theorem read?_of_parse_text {source : String} {p : Program} (h : (parse source).result = .ok p) :
    read? (render p.code) = some p.code := by
  unfold parse at h
  rw [Traced.result_bind] at h
  obtain ⟨tokens, htokens, hp⟩ := except_bind_eq_ok h
  exact read?_of_parse htokens (programOf_eq_ok.1 hp)

/-- A text that is compiled was read as a program, and the listing of this program is what the
assembly text shows. -/
theorem exists_listing {source text : String} (h : (compile source).result = .ok text) :
    ∃ p, (parse (withLineEnd source)).result = .ok p ∧ text = render p.code ∧
      read? text = some p.code := by
  obtain ⟨tokens, p, htokens, hp, rfl⟩ := exists_program h
  exact ⟨p, parse_of_tokens htokens hp, rfl, read?_of_parse htokens hp⟩

end MicroGo
