import MicroGo.Proofs.Compile.Stages
import MicroGo.Proofs.Grammar.Relocation
import MicroGo.Proofs.Token.Spelling

/-!
# Layout has no meaning

Line ends, blanks and comments decide where tokens are and where a semicolon is inferred.  Beyond
that they have no part in what comes of a text: the text and its tokens on one line, inferred
semicolons written out, give the same assembly or are refused for the same reason.  Only the places
in complaints are different ones.
-/

namespace MicroGo

/-- Two answers agree: both are the same assembly, or both are refusals for breaking the same part
of the language's definition, with the same message. -/
def AnswersAgree (answer answer' : Traced Refusal String) : Prop :=
  (∃ text, answer.result = .ok text ∧ answer'.result = .ok text) ∨
    ∃ d d', answer.result = .error (.rejected d) ∧ answer'.result = .error (.rejected d') ∧
      d.stage = d'.stage ∧ d.message = d'.message

theorem compile_of_program {source : String} {tokens : List Token} {p : Program}
    (htokens : (tokensOf (withLineEnd source)).result = .ok tokens)
    (hp : (Program.parse tokens).result = .ok p) :
    (compile source).result = .ok (Assembly.render p.code) :=
  compile_of_parse (parse_of_tokens htokens hp)

theorem compile_of_failure {source : String} {tokens : List Token} {e : Failure}
    (htokens : (tokensOf (withLineEnd source)).result = .ok tokens)
    (he : (Program.parse tokens).result = .error e) :
    (compile source).result = .error (.rejected (e.diagnostic (withLineEnd source))) :=
  compile_eq_error.2 (.inr ⟨tokens, htokens, Traced.result_mapError_eq_error.2 ⟨e, he, rfl⟩⟩)

/-- Texts with the same lexemes are compiled alike. -/
theorem compile_alike {source source' : String} {tokens tokens' : List Token}
    (htokens : (tokensOf (withLineEnd source)).result = .ok tokens)
    (htokens' : (tokensOf (withLineEnd source')).result = .ok tokens')
    (h : tokens.map Token.toLexeme = tokens'.map Token.toLexeme) :
    AnswersAgree (compile source) (compile source') := by
  rcases Parser.parse_alike h with ⟨p, hp, hp'⟩ | ⟨complaint, i, he, he'⟩
  · exact .inl ⟨_, compile_of_program htokens hp, compile_of_program htokens' hp'⟩
  · exact .inr ⟨_, _, compile_of_failure htokens he, compile_of_failure htokens' he', rfl, rfl⟩

/-- **Layout has no meaning.**  A text that can be cut into tokens, and these tokens on one line,
both become the same assembly, or both are refused for the same reason. -/
theorem compile_oneLine {source : String} {tokens : List Token}
    (h : (tokensOf (withLineEnd source)).result = .ok tokens) :
    AnswersAgree (compile source) (compile (oneLine tokens)) := by
  have hscan : (Token.scan (withLineEnd source)).result = .ok tokens :=
    Traced.result_mapError_eq_ok.1 h
  obtain ⟨tokens', hscan', hlexemes⟩ :=
    exists_scan_oneLine (endsInLineEnd_withLineEnd source) hscan
  exact compile_alike h (Traced.result_mapError_eq_ok.2 hscan') hlexemes.symm

/-- A text on four lines with a comment, and the same text on one line. -/
theorem compile_oneLine_comment :
    ∃ text, (compile "func f(n int) \x7b // twice\n\treturn n*\n2\n\x7d").result = .ok text ∧
      (compile "func f ( n int ) \x7b return n * 2 ; \x7d ;").result = .ok text := by
  have hread : (tokensOf (withLineEnd
      "func f(n int) \x7b // twice\n\treturn n*\n2\n\x7d")).result.toOption.map oneLine =
        some "func f ( n int ) \x7b return n * 2 ; \x7d ;" := by
    decide +kernel
  have hok : (compile "func f(n int) \x7b // twice\n\treturn n*\n2\n\x7d").result.isOk = true := by
    decide +kernel
  obtain ⟨tokens, htokens, hline⟩ := Option.map_eq_some_iff.1 hread
  rcases compile_oneLine (eq_ok_of_toOption htokens) with h | ⟨d, d', hrefused, -⟩
  · rwa [hline] at h
  · rw [hrefused] at hok
    cases hok

end MicroGo
