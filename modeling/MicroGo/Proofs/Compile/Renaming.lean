import MicroGo.Proofs.Grammar.Renaming
import MicroGo.Proofs.Token.Scanning

/-!
# Compilation does not depend on names

The names in the tokens of a text can be exchanged for others.  As long as different names stay
different, the program stays the same apart from its names, and so does the place of an error.  If
no function and no callee is renamed, the assembly text stays the same altogether.
-/

namespace MicroGo

/-- The texts of the names that can stand in a text. -/
def identifiers : Set String :=
  {x | Lexeme.Written ⟨.ident, x⟩}

theorem int_mem_identifiers : "int" ∈ identifiers := by
  have hwritten : (Lexeme.ofWord (String.ofList ('i' :: ['n', 't']))).Written :=
    written_ofWord (by decide) (List.all_eq_true.1 (by decide))
  exact hwritten

theorem paren_notMem_identifiers : "(" ∉ identifiers := by
  intro h
  have hpart := Lexeme.Written.isWordPart_of_ident h rfl '(' (by decide)
  exact absurd hpart (by decide)

/-- A renaming of the names that can stand in a text. -/
def Renaming.ofInjOn {r : String → String} (hinj : Set.InjOn r identifiers)
    (hint : r "int" = "int") (hparen : ∀ x ∈ identifiers, r x ≠ "(") : Renaming where
  names := identifiers
  map := r
  injOn := hinj
  int_mem := int_mem_identifiers
  map_int := hint
  paren_notMem := paren_notMem_identifiers
  map_ne_paren := hparen

/-- The names among the tokens of a text are names that can stand in a text. -/
theorem mem_identifiers_of_tokensOf {source : String} {tokens : List Token}
    (h : (tokensOf source).result = .ok tokens) :
    ∀ t ∈ tokens, t.kind = .ident → t.text ∈ identifiers := by
  obtain ⟨front, pos, rfl, hwritten⟩ := exists_of_scan (Traced.result_mapError_eq_ok.1 h)
  intro t ht hkind
  rcases List.mem_append.1 ht with ht | ht
  · have hlexeme : t.toLexeme = ⟨.ident, t.text⟩ := by rw [← hkind]
    show Lexeme.Written ⟨.ident, t.text⟩
    rw [← hlexeme]
    exact hwritten t ht
  · rw [List.mem_singleton.1 ht] at hkind
    cases hkind

/-- **Names do not matter.**  Let the names in the tokens of a text be renamed, such that different
names stay different, the name of the type stays, and no name becomes an opening parenthesis.  Then
the tokens and the renamed tokens are both read, and the second program is the first one renamed,
with the same assembly text if no function and no callee has got another name; or both are refused,
at the same place and for the same kind of reason. -/
theorem programOf_rename {source : String} {tokens : List Token} {r : String → String}
    (htokens : (tokensOf source).result = .ok tokens) (hinj : Set.InjOn r identifiers)
    (hint : r "int" = "int") (hparen : ∀ x ∈ identifiers, r x ≠ "(") (shown shown' : String) :
    (∃ p, (programOf shown tokens).result = .ok p ∧
      (programOf shown' (tokens.map (Token.rename r))).result = .ok (p.rename r) ∧
      (p.Keeps r → (assemblyOf (p.rename r)).result = (assemblyOf p).result)) ∨
    ∃ d d', (programOf shown tokens).result = .error (.rejected d) ∧
      (programOf shown' (tokens.map (Token.rename r))).result = .error (.rejected d') ∧
      d'.stage = d.stage ∧ d'.pos = d.pos := by
  have hcovers : ∀ t ∈ tokens, (Renaming.ofInjOn hinj hint hparen).Covers t.toLexeme :=
    mem_identifiers_of_tokensOf htokens
  rcases Parser.parse_rename hcovers with ⟨p, hp, hp'⟩ | ⟨e, e', he, he', hpos, hstage⟩
  · have hread : (programOf shown tokens).result = .ok p := programOf_eq_ok.2 hp
    have hread' : (programOf shown' (tokens.map (Token.rename r))).result = .ok (p.rename r) :=
      programOf_eq_ok.2 hp'
    refine .inl ⟨p, hread, hread', fun hkeeps => ?_⟩
    rw [assemblyOf_of_programOf hread, assemblyOf_of_programOf hread', Program.code_rename hkeeps]
  · exact .inr ⟨_, _, Traced.result_mapError_eq_error.2 ⟨e, he, rfl⟩,
      Traced.result_mapError_eq_error.2 ⟨e', he', rfl⟩, hstage, hpos⟩

/-- The names of a parameter and of a local variable are exchanged.  The local variable is declared
in an inner block, and its first value is the parameter. -/
theorem programOf_rename_exchange : ∃ r tokens p, r "a" = "b" ∧ r "b" = "a" ∧
    (tokensOf "func f(a int) \x7bif a \x7bvar b=a;g(b)\x7d\x7d\n").result = .ok tokens ∧
    (programOf "" tokens).result = .ok p ∧
    (programOf "" (tokens.map (Token.rename r))).result = .ok (p.rename r) ∧
    (assemblyOf (p.rename r)).result = (assemblyOf p).result := by
  let r : String → String := fun x => if x = "a" then "b" else if x = "b" then "a" else x
  have hr : Function.Involutive r := by
    intro x
    by_cases ha : x = "a"
    · simp [r, ha]
    · by_cases hb : x = "b"
      · simp [r, hb]
      · simp [r, ha, hb]
  have hparen : ∀ x ∈ identifiers, r x ≠ "(" := by
    intro x hx hrx
    have hparen : x = "(" := by
      rw [← hr x, hrx]
      rfl
    exact paren_notMem_identifiers (hparen ▸ hx)
  have hread : ((tokensOf
      "func f(a int) \x7bif a \x7bvar b=a;g(b)\x7d\x7d\n").result.toOption.bind fun tokens =>
        (Program.parse tokens).result.toOption).map
          (fun p => p.functions.map fun f => (f.name, f.nodes)) =
      some [("f", [.mention 0, .mention 1, .mention 0, .call "g" 1, .mention 1])] := by
    decide +kernel
  obtain ⟨p, hp, hfunctions⟩ := Option.map_eq_some_iff.1 hread
  obtain ⟨tokens, htokens, hparse⟩ := Option.bind_eq_some_iff.1 hp
  have hprogram : (programOf "" tokens).result = .ok p :=
    programOf_eq_ok.2 (eq_ok_of_toOption hparse)
  have hkeeps : p.Keeps r := by
    obtain ⟨f, hf, hdata⟩ := List.map_eq_singleton_iff.1 hfunctions
    obtain ⟨hname, hnodes⟩ := Prod.mk.inj hdata
    intro g hg
    rw [hf, List.mem_singleton] at hg
    rw [hg, hname, hnodes]
    refine ⟨rfl, fun callee count hmem => ?_⟩
    simp only [List.mem_cons, List.not_mem_nil, reduceCtorEq, false_or, or_false,
      Node.call.injEq] at hmem
    rw [hmem.1]
    rfl
  rcases programOf_rename (eq_ok_of_toOption htokens) hr.injective.injOn rfl hparen "" "" with
    ⟨q, hq, hq', hsame⟩ | ⟨d, d', hd, -⟩
  · obtain rfl := Except.ok.inj (hq.symm.trans hprogram)
    exact ⟨r, tokens, q, rfl, rfl, eq_ok_of_toOption htokens, hq, hq', hsame hkeeps⟩
  · rw [hprogram] at hd
    cases hd

end MicroGo
