import MicroGo.Compile
import MicroGo.Proofs.Grammar.Validity

/-!
# The stages of compilation

A text is cut into tokens, the tokens are read, and the program is turned into assembly.  The first
two stages may refuse a text.  The third one cannot refuse what the second one gives it: a program
that was read is well formed, and a well-formed program has code.  So a text is refused exactly when
it cannot be cut or read, for the reason that this stage names, and never for an internal reason.
-/

namespace MicroGo

variable {ε δ α β : Type}

/-! ## Results of stages -/

theorem Traced.result_bind (first : Traced ε α) (next : α → Traced ε β) :
    (first >>= next).result = first.result >>= fun a => (next a).result := by
  show (Traced.bind first next).result = _
  unfold Traced.bind
  cases first.result <;> rfl

theorem exists_of_isOk {x : Except ε α} (h : x.isOk = true) : ∃ a, x = .ok a := by
  cases x with
  | error e => cases h
  | ok a => exact ⟨a, rfl⟩

theorem eq_ok_of_toOption {x : Except ε α} {a : α} (h : x.toOption = some a) : x = .ok a := by
  cases x with
  | error e => cases h
  | ok b => rw [Option.some.inj h]

theorem Traced.result_mapError_eq_ok {f : ε → δ} {answer : Traced ε α} {a : α} :
    (answer.mapError f).result = .ok a ↔ answer.result = .ok a := by
  show answer.result.mapError f = .ok a ↔ _
  cases answer.result with
  | error e => exact ⟨nofun, nofun⟩
  | ok b => exact ⟨fun h => by cases h; rfl, fun h => by cases h; rfl⟩

theorem Traced.result_mapError_eq_error {f : ε → δ} {answer : Traced ε α} {d : δ} :
    (answer.mapError f).result = .error d ↔ ∃ e, answer.result = .error e ∧ f e = d := by
  show answer.result.mapError f = .error d ↔ _
  cases answer.result with
  | error e =>
      constructor
      · intro h
        cases h
        exact ⟨e, rfl, rfl⟩
      · rintro ⟨e', he, rfl⟩
        cases he
        rfl
  | ok b => exact ⟨nofun, fun ⟨_, he, _⟩ => nomatch he⟩

theorem programOf_eq_ok {source : String} {tokens : List Token} {p : Program} :
    (programOf source tokens).result = .ok p ↔ (Program.parse tokens).result = .ok p :=
  Traced.result_mapError_eq_ok

theorem parse_of_tokens {source : String} {tokens : List Token} {p : Program}
    (htokens : (tokensOf source).result = .ok tokens)
    (hp : (Program.parse tokens).result = .ok p) : (parse source).result = .ok p := by
  rw [parse, Traced.result_bind, htokens]
  exact programOf_eq_ok.2 hp

/-! ## The last stage does not refuse -/

/-- The assembly text of a well-formed program is its listing, written out. -/
theorem assemblyOf_of_wellFormed {p : Program} (h : p.WellFormed) :
    (assemblyOf p).result = .ok (Assembly.render p.code) := by
  unfold assemblyOf
  rw [Traced.result_bind, Traced.result_mapError_eq_ok.2 h.assemble]
  rfl

theorem assemblyOf_of_programOf {source : String} {tokens : List Token} {p : Program}
    (h : (programOf source tokens).result = .ok p) :
    (assemblyOf p).result = .ok (Assembly.render p.code) :=
  assemblyOf_of_wellFormed (wellFormed_of_parse (programOf_eq_ok.1 h))

/-- A text becomes assembly if it can be cut and read, and the assembly is the listing of the
program that it spells. -/
theorem exists_program {source text : String} (h : (compile source).result = .ok text) :
    ∃ tokens p, (tokensOf (withLineEnd source)).result = .ok tokens ∧
      (Program.parse tokens).result = .ok p ∧ text = Assembly.render p.code := by
  unfold compile parse at h
  rw [Traced.result_bind, Traced.result_bind] at h
  obtain ⟨p, hparse, htext⟩ := except_bind_eq_ok h
  obtain ⟨tokens, htokens, hp⟩ := except_bind_eq_ok hparse
  rw [assemblyOf_of_programOf hp] at htext
  exact ⟨tokens, p, htokens, programOf_eq_ok.1 hp, (Except.ok.inj htext).symm⟩

/-- A program that was read from a text is well formed. -/
theorem wellFormed_of_parse_text {source : String} {p : Program}
    (h : (parse source).result = .ok p) : p.WellFormed := by
  unfold parse at h
  rw [Traced.result_bind] at h
  obtain ⟨tokens, -, hp⟩ := except_bind_eq_ok h
  exact wellFormed_of_parse (programOf_eq_ok.1 hp)

/-- What can be read becomes assembly. -/
theorem compile_of_parse {source : String} {p : Program}
    (h : (parse (withLineEnd source)).result = .ok p) :
    (compile source).result = .ok (Assembly.render p.code) := by
  unfold compile
  rw [Traced.result_bind, h]
  exact assemblyOf_of_wellFormed (wellFormed_of_parse_text h)

/-- A text is refused where it is cut or where it is read. -/
theorem compile_eq_error {source : String} {refusal : Refusal} :
    (compile source).result = .error refusal ↔
      (tokensOf (withLineEnd source)).result = .error refusal ∨
        ∃ tokens, (tokensOf (withLineEnd source)).result = .ok tokens ∧
          (programOf (withLineEnd source) tokens).result = .error refusal := by
  unfold compile parse
  rw [Traced.result_bind, Traced.result_bind, except_bind_eq_error, except_bind_eq_error]
  constructor
  · rintro (h | ⟨p, hparse, htext⟩)
    · exact h
    · obtain ⟨tokens, -, hp⟩ := except_bind_eq_ok hparse
      rw [assemblyOf_of_programOf hp] at htext
      cases htext
  · exact .inl

/-! ## Refusals -/

/-- **What is read can be compiled.**  Every program that was read has assembly, whatever list of
tokens it was read from; and a text is refused exactly when it cannot be cut into tokens or when its
tokens cannot be read, for the reason that this stage gives, which is never an internal one. -/
theorem refused_iff_unreadable :
    (∀ source tokens p, (programOf source tokens).result = .ok p →
      ∃ text, (assemblyOf p).result = .ok text) ∧
    ∀ source,
      (∀ refusal, (compile source).result = .error refusal ↔
        (tokensOf (withLineEnd source)).result = .error refusal ∨
          ∃ tokens, (tokensOf (withLineEnd source)).result = .ok tokens ∧
            (programOf (withLineEnd source) tokens).result = .error refusal) ∧
      ∀ message, (compile source).result ≠ .error (.internal message) := by
  refine ⟨fun source tokens p h => ⟨_, assemblyOf_of_programOf h⟩, fun source => ⟨?_, ?_⟩⟩
  · exact fun refusal => compile_eq_error
  · intro message h
    rcases compile_eq_error.1 h with h | ⟨tokens, -, h⟩
    · obtain ⟨failure, -, hfailure⟩ := Traced.result_mapError_eq_error.1 h
      cases hfailure
    · obtain ⟨failure, -, hfailure⟩ := Traced.result_mapError_eq_error.1 h
      cases hfailure

/-- The tokens of a text with a loop and a call are read, and so have assembly. -/
theorem refused_iff_unreadable_loop :
    ∃ tokens p text,
      (tokensOf "func f(n int) \x7b for n < 9 \x7b n = g(n) \x7d \x7d\n").result = .ok tokens ∧
        (programOf "" tokens).result = .ok p ∧ (assemblyOf p).result = .ok text := by
  have hread :
      ((tokensOf "func f(n int) \x7b for n < 9 \x7b n = g(n) \x7d \x7d\n").result >>= fun tokens =>
        (programOf "" tokens).result).isOk = true := by
    decide +kernel
  obtain ⟨p, hp⟩ := exists_of_isOk hread
  obtain ⟨tokens, htokens, hprogram⟩ := except_bind_eq_ok hp
  obtain ⟨text, htext⟩ := refused_iff_unreadable.1 "" tokens p hprogram
  exact ⟨tokens, p, text, htokens, hprogram, htext⟩

end MicroGo
