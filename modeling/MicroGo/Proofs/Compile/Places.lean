import Mathlib.Data.List.GetD
import Mathlib.Data.List.TakeWhile
import MicroGo.Proofs.Compile.Stages
import MicroGo.Proofs.Grammar.Relocation

/-!
# The place of a complaint

What is read from a list of tokens does not depend on where the tokens stand, nor on the text that
they are said to come from.  Both have a part in diagnostics only: a diagnostic is about one token
of the list, whose place it names, and shows the line of the text at that place.

A list may lack an end of the input, or have several.  Reading stops at the first one; in a list
without any, it stops behind the last token, and a complaint about the missing rest is made about
the line below (`listEnd`).
-/

namespace MicroGo

/-- The end of the input behind a list of tokens: the last token, if it is one, and otherwise the
start of the line below. -/
def listEnd (tokens : List Token) : Token :=
  match tokens.getLast? with
  | none => .endOfInput .start
  | some last => if last.kind = .eof then last else .endOfInput last.pos.nextLine

/-- The place of the token with a number.  Past the last token there is the end of the input. -/
def placeAt (tokens : List Token) (i : Nat) : Position :=
  (tokens.getD i (listEnd tokens)).pos

namespace Parser.State

/-- Reading stops at the first end of the input, and in a list without one behind the last token. -/
theorem stopOf_eq (tokens : List Token) :
    stopOf tokens =
      (tokens.dropWhile fun t => t.kind ≠ .eof).head?.getD (listEnd tokens) := by
  have hfind : (tokens.dropWhile fun t => t.kind ≠ .eof).head? =
      tokens.find? fun t => t.kind = .eof := by
    rw [List.find?_eq_head?_dropWhile_not]
    simp only [decide_not]
  rw [hfind]
  unfold stopOf listEnd
  cases hstop : tokens.find? fun t => t.kind = .eof with
  | some stop => rfl
  | none =>
    cases hlast : tokens.getLast? with
    | none => rfl
    | some last =>
      have hkind := List.find?_eq_none.1 hstop last (List.mem_of_getLast? hlast)
      exact (if_neg fun h => hkind (decide_eq_true h)).symm

/-- The token with a number in the first of two lists.  Past its end there is the first token of the
second list. -/
theorem getD_append_min (front back : List Token) (i : Nat) (stop : Token) :
    (front ++ back).getD (min i front.length) stop = front.getD i (back.head?.getD stop) := by
  by_cases hi : i < front.length
  · rw [Nat.min_eq_left hi.le, List.getD_append _ _ _ _ hi, List.getD_eq_getElem _ _ hi,
      List.getD_eq_getElem _ _ hi]
  · rw [Nat.min_eq_right (not_lt.1 hi), List.getD_append_right _ _ _ _ (le_refl _), Nat.sub_self,
      List.getD_eq_default _ _ (not_lt.1 hi), List.head?_eq_getElem?, List.getD_eq_getElem?_getD]

/-- **A complaint is about a token of the list.**  The token that is ahead with a number, or the one
at which reading stops, has the same number in the list or is the first one that is not ahead. -/
theorem pos_tokenAt (tokens : List Token) (i : Nat) :
    ((ofTokens tokens).tokenAt i).pos = placeAt tokens (min i (ofTokens tokens).ahead.length) := by
  have hsplit : (ofTokens tokens).ahead ++ tokens.dropWhile (fun t => t.kind ≠ .eof) = tokens :=
    List.takeWhile_append_dropWhile
  have hat := getD_append_min (ofTokens tokens).ahead
    (tokens.dropWhile fun t => t.kind ≠ .eof) i (listEnd tokens)
  rw [hsplit, ← stopOf_eq] at hat
  rw [placeAt, hat]
  rfl

end Parser.State

/-- **Only lexemes decide what is read.**  Two lists with the same lexemes, with the tokens at any
places and read for any two texts, both spell the same program; or the same complaint is made about
both of them, each time at the place of the token with one and the same number. -/
theorem programOf_alike (source source' : String) {tokens tokens' : List Token}
    (h : tokens.map Token.toLexeme = tokens'.map Token.toLexeme) :
    (∃ p, (programOf source tokens).result = .ok p ∧ (programOf source' tokens').result = .ok p) ∨
      ∃ stage message i,
        (programOf source tokens).result =
          .error (.rejected (.about source stage (placeAt tokens i) message)) ∧
        (programOf source' tokens').result =
          .error (.rejected (.about source' stage (placeAt tokens' i) message)) := by
  have hahead : (Parser.State.ofTokens tokens').ahead.length =
      (Parser.State.ofTokens tokens).ahead.length := by
    rw [← List.length_map Token.toLexeme, ← List.length_map Token.toLexeme,
      Parser.State.map_toLexeme_ahead, Parser.State.map_toLexeme_ahead, h]
  rcases Parser.parse_alike h with ⟨p, hp, hp'⟩ | ⟨complaint, i, he, he'⟩
  · exact .inl ⟨p, programOf_eq_ok.2 hp, programOf_eq_ok.2 hp'⟩
  · rw [Parser.State.pos_tokenAt] at he he'
    rw [hahead] at he'
    exact .inr ⟨complaint.stage, complaint.message, _,
      Traced.result_mapError_eq_error.2 ⟨_, he, rfl⟩,
      Traced.result_mapError_eq_error.2 ⟨_, he', rfl⟩⟩

/-- The lexemes of a function with two parameters of the same name, once beside and once below each
other, and without an end of the input: the complaint is about the second name in both lists. -/
theorem programOf_alike_parameters :
    let lexemes : List Lexeme := [.reserved "func", ⟨.ident, "f"⟩, .reserved "(", ⟨.ident, "a"⟩,
      ⟨.ident, "int"⟩, .reserved ",", ⟨.ident, "a"⟩, ⟨.ident, "int"⟩]
    let row : List Token := lexemes.mapIdx fun i l => ⟨l, ⟨1, i⟩⟩
    let column : List Token := lexemes.mapIdx fun i l => ⟨l, ⟨i, 5⟩⟩
    ∃ stage message i,
      (programOf "" row).result =
        .error (.rejected (.about "" stage (placeAt row i) message)) ∧
      (programOf "x" column).result =
        .error (.rejected (.about "x" stage (placeAt column i) message)) := by
  intro lexemes row column
  have hfails : (programOf "" row).result.isOk = false := by decide +kernel
  have hsame : row.map Token.toLexeme = column.map Token.toLexeme := by decide
  rcases programOf_alike "" "x" hsame with ⟨p, hp, -⟩ | h
  · rw [hp] at hfails
    cases hfails
  · exact h

end MicroGo
