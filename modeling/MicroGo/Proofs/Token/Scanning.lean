import Mathlib.Data.List.TakeWhile
import Mathlib.Tactic.Common
import MicroGo.Proofs.Grammar.Tree
import MicroGo.Token.Scan

/-!
# What scanning gives

Scanning is a run in a state that may be broken off by a foreign character.  Everything that is said
later about the tokens of a text is said about a fold over its pieces, which gives the same tokens
(`result_scan`).

The lexemes of a text are those that can be written in it (`Lexeme.Written`): numerals are digits,
names are words that are no keywords, and everything else is a keyword or a sign.  In particular no
lexeme of a text is the end of the input, which stands behind all of them and nowhere else
(`exists_of_scan`).
-/

namespace MicroGo

/-! ## Lexemes that can be written -/

theorem Piece.isWordPart_of_isWordStart {c : Char} (h : isWordStart c) : isWordPart c := by
  unfold isWordStart at h
  unfold isWordPart Char.isAlphanum
  rcases Bool.or_eq_true_iff.1 h with h | h
  · rw [h, Bool.true_or, Bool.true_or]
  · rw [h, Bool.or_true]

/-- **The lexemes that can be written in a text.** -/
inductive Lexeme.Written : Lexeme → Prop where
  | num {c : Char} {cs : List Char} (digit : c.isDigit) (digits : ∀ d ∈ cs, d.isDigit) :
      Written ⟨.num, String.ofList (c :: cs)⟩
  | name {c : Char} {cs : List Char} (start : Piece.isWordStart c)
      (parts : ∀ d ∈ cs, Piece.isWordPart d) (other : String.ofList (c :: cs) ∉ keywords) :
      Written ⟨.ident, String.ofList (c :: cs)⟩
  | keyword {text : String} (mem : text ∈ keywords) : Written (.reserved text)
  | equals {c : Char} (start : Piece.beginsEquals c) :
      Written (.reserved (String.ofList [c, '=']))
  | sign {c : Char} (sign : Piece.isPunctuation c) : Written (.reserved (String.ofList [c]))

namespace Lexeme.Written

theorem kind_ne {l : Lexeme} (h : l.Written) : l.kind ≠ .eof := by
  cases h <;> exact nofun

/-- A name is made of the parts of words. -/
theorem isWordPart_of_ident {l : Lexeme} (h : l.Written) (hkind : l.kind = .ident) :
    ∀ c ∈ l.text.toList, Piece.isWordPart c := by
  cases h with
  | @name c cs start parts other =>
      intro d hd
      rw [String.toList_ofList, List.mem_cons] at hd
      rcases hd with rfl | hd
      · exact Piece.isWordPart_of_isWordStart start
      · exact parts d hd
  | num digit digits => cases hkind
  | keyword mem => cases hkind
  | equals start => cases hkind
  | sign sign => cases hkind

end Lexeme.Written

/-- A word of the text is a keyword or a name. -/
theorem written_ofWord {c : Char} {cs : List Char} (hstart : Piece.isWordStart c)
    (hparts : ∀ d ∈ cs, Piece.isWordPart d) :
    (Lexeme.ofWord (String.ofList (c :: cs))).Written := by
  unfold Lexeme.ofWord
  split
  next hmem => exact .keyword hmem
  next hmem => exact .name hstart hparts hmem

namespace Piece

theorem written_split {c : Char} {cs : List Char} {l : Lexeme} (h : (split c cs).1 = .lexeme l) :
    l.Written := by
  unfold split at h
  split at h
  · cases h
  split at h
  · cases h
  split at h
  · cases h
  split at h
  next hdigit =>
    cases h
    exact .num hdigit fun d hd => List.mem_takeWhile_imp hd
  split at h
  next hstart =>
    cases h
    exact written_ofWord hstart fun d hd => List.mem_takeWhile_imp hd
  split at h
  next hequals =>
    cases h
    exact .equals (Bool.and_eq_true_iff.1 hequals).1
  split at h
  next hsign =>
    cases h
    exact .sign hsign
  · cases h

end Piece

/-- Every piece of a text is the first piece of some text. -/
theorem exists_split_of_mem_pieces (cs : List Char) {p : Piece} (h : p ∈ pieces cs) :
    ∃ c rest, (Piece.split c rest).1 = p := by
  induction cs using pieces.induct with
  | case1 =>
      rw [pieces] at h
      cases h
  | case2 c cs ih =>
      rw [pieces, List.mem_cons] at h
      rcases h with rfl | h
      · exact ⟨c, cs, rfl⟩
      · exact ih h

/-- The lexemes of a text are written in it. -/
theorem written_of_mem_pieces (cs : List Char) {l : Lexeme} (h : .lexeme l ∈ pieces cs) :
    l.Written := by
  obtain ⟨c, rest, hsplit⟩ := exists_split_of_mem_pieces cs h
  exact Piece.written_split hsplit

/-! ## Scanning as a fold -/

namespace Scan

/-- The state behind a piece. -/
def next? (s : Scan) : Piece → Except Failure Scan
  | .blank text => .ok (s.skip text)
  | .lineEnd => .ok s.endLine
  | .comment text => .ok (s.skip text)
  | .lexeme lexeme => .ok (s.take lexeme)
  | .foreign c => .error ⟨.foreignCharacter c, s.pos⟩

/-- The state behind pieces. -/
def readPieces (s : Scan) (ps : List Piece) : Except Failure Scan :=
  ps.foldlM next? s

theorem readPieces_cons (s : Scan) (p : Piece) (ps : List Piece) :
    s.readPieces (p :: ps) = s.next? p >>= fun t => t.readPieces ps :=
  List.foldlM_cons

theorem readPieces_append (s : Scan) (ps qs : List Piece) :
    s.readPieces (ps ++ qs) = s.readPieces ps >>= fun t => t.readPieces qs :=
  List.foldlM_append

theorem forM_read (ps : List Piece) (s : Scan) :
    (∃ t, s.readPieces ps = .ok t ∧ ps.forM read s = .ok () t) ∨
      ∃ e t, s.readPieces ps = .error e ∧ ps.forM read s = .error e t := by
  induction ps generalizing s with
  | nil => exact .inl ⟨s, rfl, rfl⟩
  | cons p ps ih =>
      rw [readPieces_cons]
      cases p with
      | blank text => exact ih (s.skip text)
      | lineEnd => exact ih s.endLine
      | comment text => exact ih (s.skip text)
      | lexeme l => exact ih (s.take l)
      | «foreign» c => exact .inr ⟨_, s, rfl, rfl⟩

end Scan

/-- **The tokens of a text are those behind its pieces**, and the end of the input. -/
theorem result_scan (source : String) :
    (Token.scan source).result =
      (Scan.readPieces {} (pieces source.toList)).map fun s =>
        s.tokens.toList ++ [.endOfInput s.pos] := by
  unfold Token.scan Scan.readAll
  rcases Scan.forM_read (pieces source.toList) {} with ⟨s, hfold, hrun⟩ | ⟨e, s, hfold, hrun⟩
  · rw [hfold]
    show (Traced.ofResult Scan.log (EStateM.bind _ _ _)).result = _
    unfold EStateM.bind
    rw [hrun]
    show Except.ok s.finish.tokens.toList = Except.ok _
    simp [Scan.finish]
  · rw [hfold]
    show (Traced.ofResult Scan.log (EStateM.bind _ _ _)).result = _
    unfold EStateM.bind
    rw [hrun]
    rfl

/-! ## The tokens of a text -/

namespace Scan

variable {P : Lexeme → Prop} {s t : Scan}

/-- The lexemes of all tokens so far satisfy `P`. -/
def All (P : Lexeme → Prop) (s : Scan) : Prop :=
  ∀ t ∈ s.tokens.toList, P t.toLexeme

theorem All.endLine (h : s.All P) (hsemicolon : P (.reserved ";")) : s.endLine.All P := by
  unfold Scan.endLine
  split
  · exact h
  · intro t ht
    rw [Array.toList_push, List.mem_append, List.mem_singleton] at ht
    rcases ht with ht | rfl
    · exact h t ht
    · exact hsemicolon

/-- What holds of a semicolon and of the lexemes of a text holds of all its tokens. -/
theorem All.readPieces {ps : List Piece} (h : s.All P) (hsemicolon : P (.reserved ";"))
    (hps : ∀ l, .lexeme l ∈ ps → P l) (hrun : s.readPieces ps = .ok t) : t.All P := by
  induction ps generalizing s with
  | nil =>
      cases hrun
      exact h
  | cons p ps ih =>
      have hps' : ∀ l, .lexeme l ∈ ps → P l := fun l hl => hps l (List.mem_cons_of_mem p hl)
      rw [readPieces_cons] at hrun
      cases p with
      | blank text => exact ih (s := s.skip text) h hps' hrun
      | lineEnd => exact ih (h.endLine hsemicolon) hps' hrun
      | comment text => exact ih (s := s.skip text) h hps' hrun
      | lexeme l =>
          refine ih (s := s.take l) (fun t ht => ?_) hps' hrun
          rw [Scan.take, Array.toList_push, List.mem_append, List.mem_singleton] at ht
          rcases ht with ht | rfl
          · exact h t ht
          · exact hps l List.mem_cons_self
      | «foreign» c => cases hrun

end Scan

/-- The tokens of a text are those behind its pieces, and the end of the input. -/
theorem exists_readPieces_of_scan {source : String} {tokens : List Token}
    (h : (Token.scan source).result = .ok tokens) :
    ∃ s, Scan.readPieces {} (pieces source.toList) = .ok s ∧
      tokens = s.tokens.toList ++ [.endOfInput s.pos] := by
  rw [result_scan] at h
  cases hfold : Scan.readPieces {} (pieces source.toList) with
  | error e =>
      rw [hfold] at h
      cases h
  | ok s =>
      rw [hfold] at h
      exact ⟨s, rfl, (Except.ok.inj h).symm⟩

/-- **The tokens of a text are written in it, and the end of the input stands behind them.** -/
theorem exists_of_scan {source : String} {tokens : List Token}
    (h : (Token.scan source).result = .ok tokens) :
    ∃ front pos, tokens = front ++ [.endOfInput pos] ∧ ∀ t ∈ front, t.toLexeme.Written := by
  obtain ⟨s, hfold, rfl⟩ := exists_readPieces_of_scan h
  have hempty : Scan.All Lexeme.Written {} := nofun
  exact ⟨_, _, rfl, hempty.readPieces (.sign (c := ';') (by decide))
    (fun l => written_of_mem_pieces _) hfold⟩

/-! ## Lexemes of a text -/

namespace Grammar

/-- What the parser has in front of it is the text up to the end of the input. -/
theorem exists_ahead_of_scan {source : String} {tokens : List Token}
    (h : (Token.scan source).result = .ok tokens) :
    ∃ pos, tokens = (Parser.State.ofTokens tokens).ahead ++ [.endOfInput pos] ∧
      ∀ t ∈ (Parser.State.ofTokens tokens).ahead, t.toLexeme.Written := by
  obtain ⟨front, pos, rfl, hfront⟩ := exists_of_scan h
  have hkinds : ∀ t ∈ front, decide (t.kind ≠ .eof) = true := fun t ht =>
    decide_eq_true (hfront t ht).kind_ne
  have hahead : (Parser.State.ofTokens (front ++ [Token.endOfInput pos])).ahead = front := by
    show (front ++ [Token.endOfInput pos]).takeWhile (fun t => t.kind ≠ .eof) = front
    rw [List.takeWhile_append_of_pos hkinds]
    exact List.append_nil front
  rw [hahead]
  exact ⟨pos, rfl, hfront⟩

/-- The lexemes of a text are those in front of the end of the input, and that end. -/
theorem map_toLexeme_of_scan {source : String} {tokens : List Token}
    (h : (Token.scan source).result = .ok tokens) :
    tokens.map Token.toLexeme = lexemesOf tokens ++ [⟨.eof, ""⟩] := by
  obtain ⟨pos, htokens, -⟩ := exists_ahead_of_scan h
  have hmap := congrArg (List.map Token.toLexeme) htokens
  rwa [List.map_append] at hmap

theorem written_of_mem_lexemesOf {source : String} {tokens : List Token}
    (h : (Token.scan source).result = .ok tokens) {l : Lexeme} (hl : l ∈ lexemesOf tokens) :
    l.Written := by
  obtain ⟨pos, -, hwritten⟩ := exists_ahead_of_scan h
  obtain ⟨t, ht, rfl⟩ := List.mem_map.1 hl
  exact hwritten t ht

end Grammar

end MicroGo
