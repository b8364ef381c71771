import Mathlib.Data.List.DropRight
import MicroGo.Proofs.Compile.Stages
import MicroGo.Proofs.Token.Cutting

/-!
# The tokens of a text and the text between them

The tokens of a text lie in it one behind the other, each with its own characters at the place that
it names, and what lies between them has no meaning: blanks, line ends and comments.  `Cut` says so
by going through a text from the left.  It knows what has been passed, since this decides the place
of what comes next.

Two kinds of token have no characters in the text.  An inferred semicolon stands where a line ends,
and the end of the input stands behind the last character.

## The places

A place is determined by the text in front of it (`Position.behind`).  The reading itself counts
lines and bytes as it goes along, differently for each kind of piece; that both agree is the
invariant behind the main result (`cut_of_readPieces`).
-/

namespace MicroGo

/-! ## The place behind a text -/

namespace Position

/-- **The place behind a text.**  The line is one more than the number of line ends in the text, and
the column is one more than the number of bytes behind the last of them. -/
def behind (text : List Char) : Position :=
  ⟨1 + text.count '\n', 1 + byteCount (text.rtakeWhile (· ≠ '\n'))⟩

/-- A place comes before another one, in the order of reading. -/
def Before (pos pos' : Position) : Prop :=
  pos.line < pos'.line ∨ pos.line = pos'.line ∧ pos.column < pos'.column

theorem byteCount_append (xs ys : List Char) :
    byteCount (xs ++ ys) = byteCount xs + byteCount ys := by
  induction xs with
  | nil => exact (Nat.zero_add _).symm
  | cons x xs ih =>
    show x.utf8Size + byteCount (xs ++ ys) = x.utf8Size + byteCount xs + byteCount ys
    rw [ih, Nat.add_assoc]

theorem after_after (pos : Position) (xs ys : List Char) :
    (pos.after xs).after ys = pos.after (xs ++ ys) := by
  rw [after, after, after, byteCount_append, Nat.add_assoc]

theorem behind_lineEnd (front : List Char) :
    behind (front ++ ['\n']) = (behind front).nextLine := by
  have hlast : (front ++ ['\n']).rtakeWhile (· ≠ '\n') = [] :=
    List.rtakeWhile_concat_neg _ _ _ (by simp)
  rw [behind, hlast, List.count_append, nextLine, behind, Nat.add_assoc]
  rfl

theorem behind_concat (front : List Char) {c : Char} (hc : c ≠ '\n') :
    behind (front ++ [c]) = (behind front).after [c] := by
  have hlast : (front ++ [c]).rtakeWhile (· ≠ '\n') = front.rtakeWhile (· ≠ '\n') ++ [c] :=
    List.rtakeWhile_concat_pos _ _ _ (by simp [hc])
  have hcount : (front ++ [c]).count '\n' = front.count '\n' := by
    rw [List.count_append, List.count_singleton, if_neg (by simpa using hc), Nat.add_zero]
  rw [behind, hlast, hcount, byteCount_append, after, behind, Nat.add_assoc]

/-- A text without a line end moves the place on by its bytes. -/
theorem behind_append (front : List Char) {text : List Char} (h : '\n' ∉ text) :
    behind (front ++ text) = (behind front).after text := by
  induction text generalizing front with
  | nil => rw [List.append_nil, after, byteCount, List.foldr_nil, Nat.add_zero]
  | cons c cs ih =>
    obtain ⟨hc, hcs⟩ := not_or.1 (fun hmem => h (List.mem_cons.2 hmem))
    rw [← List.singleton_append, ← List.append_assoc, ih _ hcs, behind_concat _ (Ne.symm hc),
      after_after]

theorem Before.trans {p q r : Position} (hpq : p.Before q) (hqr : q.Before r) : p.Before r := by
  unfold Before at *
  omega

theorem before_behind_concat (front : List Char) (c : Char) :
    (behind front).Before (behind (front ++ [c])) := by
  by_cases hc : c = '\n'
  · subst hc
    rw [behind_lineEnd]
    exact .inl (Nat.lt_succ_self _)
  · rw [behind_concat _ hc]
    exact .inr ⟨rfl, Nat.lt_add_of_pos_right (Nat.add_pos_left c.utf8Size_pos 0)⟩

/-- More text leads further on. -/
theorem before_behind (front : List Char) {text : List Char} (h : text ≠ []) :
    (behind front).Before (behind (front ++ text)) := by
  induction text generalizing front with
  | nil => exact absurd rfl h
  | cons c cs ih =>
    have hstep := before_behind_concat front c
    rw [← List.singleton_append, ← List.append_assoc]
    by_cases hcs : cs = []
    · rw [hcs, List.append_nil]
      exact hstep
    · exact hstep.trans (ih _ hcs)

end Position

/-! ## The tokens in a text -/

/-- **The text `rest`, which stands behind `front`, is cut into tokens.**  Blanks, line ends and
comments are passed over; every lexeme becomes a token at its place, and cannot be made longer
there; at a line end there may be an inferred semicolon; and the end of the input stands behind
everything. -/
inductive Cut : (front rest : List Char) → List Token → Prop where
  | done {front : List Char} : Cut front [] [.endOfInput (.behind front)]
  | blank {front rest : List Char} {c : Char} {tokens : List Token} (isBlank : Piece.isBlank c)
      (later : Cut (front ++ [c]) rest tokens) : Cut front (c :: rest) tokens
  | comment {front text rest : List Char} {tokens : List Token} (line : '\n' ∉ text)
      (ends : ∀ c ∈ rest.head?, c = '\n') (later : Cut (front ++ '/' :: '/' :: text) rest tokens) :
      Cut front ('/' :: '/' :: text ++ rest) tokens
  | lineEnd {front rest : List Char} {tokens : List Token}
      (later : Cut (front ++ ['\n']) rest tokens) : Cut front ('\n' :: rest) tokens
  | inferred {front rest : List Char} {tokens : List Token}
      (later : Cut (front ++ ['\n']) rest tokens) :
      Cut front ('\n' :: rest) (⟨.reserved ";", .behind front⟩ :: tokens)
  | written {front rest : List Char} {l : Lexeme} {tokens : List Token}
      (written : l.WrittenBefore rest) (later : Cut (front ++ l.text.toList) rest tokens) :
      Cut front (l.text.toList ++ rest) (⟨l, .behind front⟩ :: tokens)

namespace Cut

variable {front rest : List Char} {tokens : List Token}

theorem blanks {text : List Char} (htext : ∀ c ∈ text, Piece.isBlank c)
    (h : Cut (front ++ text) rest tokens) : Cut front (text ++ rest) tokens := by
  induction text generalizing front with
  | nil =>
    rw [List.append_nil] at h
    exact h
  | cons c cs ih =>
    rw [← List.singleton_append, ← List.append_assoc] at h
    obtain ⟨hc, hcs⟩ := List.forall_mem_cons.1 htext
    exact .blank hc (ih hcs h)

/-- What stands behind a part of the text stands in the whole text. -/
theorem exists_behind_later (passed : List Char) {pos : Position}
    (h : ∃ a b, rest = a ++ b ∧ pos = .behind (front ++ passed ++ a)) :
    ∃ a b, passed ++ rest = a ++ b ∧ pos = .behind (front ++ a) := by
  obtain ⟨a, b, rfl, hpos⟩ := h
  exact ⟨passed ++ a, b, (List.append_assoc ..).symm, by rw [hpos, List.append_assoc]⟩

/-- Every token stands somewhere in the text. -/
theorem exists_behind (h : Cut front rest tokens) :
    ∀ t ∈ tokens, ∃ a b, rest = a ++ b ∧ t.pos = .behind (front ++ a) := by
  induction h with
  | done =>
    intro t ht
    rw [List.mem_singleton] at ht
    exact ⟨[], [], rfl, by rw [ht, List.append_nil]; rfl⟩
  | @blank front rest c tokens isBlank later ih =>
    exact fun t ht => exists_behind_later [c] (ih t ht)
  | comment line ends later ih => exact fun t ht => exists_behind_later _ (ih t ht)
  | lineEnd later ih => exact fun t ht => exists_behind_later ['\n'] (ih t ht)
  | inferred later ih =>
    intro t ht
    rcases List.mem_cons.1 ht with rfl | ht
    · exact ⟨[], _, rfl, by rw [List.append_nil]⟩
    · exact exists_behind_later ['\n'] (ih t ht)
  | written written later ih =>
    intro t ht
    rcases List.mem_cons.1 ht with rfl | ht
    · exact ⟨[], _, rfl, by rw [List.append_nil]⟩
    · exact exists_behind_later _ (ih t ht)

/-- The tokens behind a part of the text come after its beginning. -/
theorem before_of_later {text : List Char} (htext : text ≠ [])
    (h : Cut (front ++ text) rest tokens) :
    ∀ t ∈ tokens, (Position.behind front).Before t.pos := by
  intro t ht
  obtain ⟨a, b, -, hpos⟩ := h.exists_behind t ht
  rw [hpos, List.append_assoc]
  exact Position.before_behind front (List.append_ne_nil_of_left_ne_nil htext a)

/-- **The places of the tokens increase.** -/
theorem pairwise_before (h : Cut front rest tokens) :
    tokens.Pairwise fun t t' => t.pos.Before t'.pos := by
  induction h with
  | done => exact List.pairwise_singleton _ _
  | blank isBlank later ih => exact ih
  | comment line ends later ih => exact ih
  | lineEnd later ih => exact ih
  | inferred later ih => exact ih.cons (later.before_of_later (List.cons_ne_nil _ _))
  | written written later ih => exact ih.cons (later.before_of_later written.toWritten.text_ne_nil)

/-- **The end of the input stands behind the last character**, and nowhere else. -/
theorem exists_closed (h : Cut front rest tokens) :
    ∃ ts, tokens = ts ++ [.endOfInput (.behind (front ++ rest))] ∧ ∀ t ∈ ts, t.kind ≠ .eof := by
  induction h with
  | done =>
    rw [List.append_nil]
    exact ⟨[], rfl, fun t ht => absurd ht List.not_mem_nil⟩
  | blank isBlank later ih =>
    rw [List.append_assoc] at ih
    exact ih
  | comment line ends later ih =>
    rw [List.append_assoc] at ih
    exact ih
  | lineEnd later ih =>
    rw [List.append_assoc] at ih
    exact ih
  | inferred later ih =>
    rw [List.append_assoc] at ih
    obtain ⟨ts, hts, hkind⟩ := ih
    exact ⟨_ :: ts, congrArg _ hts, List.forall_mem_cons.2 ⟨by simp, hkind⟩⟩
  | written written later ih =>
    rw [List.append_assoc] at ih
    obtain ⟨ts, hts, hkind⟩ := ih
    exact ⟨_ :: ts, congrArg _ hts, List.forall_mem_cons.2 ⟨written.toWritten.kind_ne, hkind⟩⟩

end Cut

/-! ## Reading a text -/

/-- **Reading cuts a text.**  The place that reading has come to is the one behind the text that was
read. -/
theorem cut_of_readPieces (rest : List Char) {front : List Char} {s t : Scan}
    (hpos : s.pos = .behind front) (hrun : s.readPieces (pieces rest) = .ok t) :
    ∃ tokens, t.tokens.toList = s.tokens.toList ++ tokens ∧
      Cut front rest (tokens ++ [.endOfInput t.pos]) := by
  induction rest using pieces_induction generalizing front s with
  | nil =>
    rw [pieces] at hrun
    cases hrun
    exact ⟨[], (List.append_nil _).symm, hpos ▸ .done⟩
  | piece p rest hfits hpieces ih =>
    rw [hpieces, Scan.readPieces_cons] at hrun
    -- the place behind a piece without a line end
    have hafter {text : List Char} (h : '\n' ∉ text) :
        s.pos.after text = .behind (front ++ text) := by
      rw [hpos, Position.behind_append front h]
    cases hfits with
    | @blank text blanks =>
      have hline : '\n' ∉ text := fun hmem => absurd (blanks _ hmem) (by decide)
      obtain ⟨tokens, ht, hcut⟩ := ih (s := s.skip text) (hafter hline) hrun
      exact ⟨tokens, ht, hcut.blanks blanks⟩
    | lineEnd =>
      have hnext : s.endLine.pos = .behind (front ++ ['\n']) := by
        rw [Scan.pos_endLine, hpos, Position.behind_lineEnd]
      obtain ⟨tokens, ht, hcut⟩ := ih hnext hrun
      rw [Scan.tokens_endLine, List.append_assoc] at ht
      refine ⟨_, ht, ?_⟩
      cases s.unfinished? with
      | none => exact .lineEnd hcut
      | some last => exact hpos ▸ .inferred hcut
    | @comment text line ends =>
      have hline : '\n' ∉ '/' :: '/' :: text := by simp [line]
      obtain ⟨tokens, ht, hcut⟩ := ih (s := s.skip _) (hafter hline) hrun
      exact ⟨tokens, ht, .comment line ends hcut⟩
    | @lexeme l written =>
      obtain ⟨tokens, ht, hcut⟩ :=
        ih (s := s.take l) (hafter written.toWritten.lineEnd_notMem) hrun
      rw [Scan.take, Array.toList_push, List.append_assoc] at ht
      exact ⟨_, ht, hpos ▸ .written written hcut⟩
    | «foreign» isForeign => cases hrun

/-- The tokens of a text cut it. -/
theorem cut_of_scan {source : String} {tokens : List Token}
    (h : (Token.scan source).result = .ok tokens) : Cut [] source.toList tokens := by
  obtain ⟨s, hrun, rfl⟩ := exists_readPieces_of_scan h
  have hstart : ({} : Scan).pos = .behind [] := rfl
  obtain ⟨ts, hts, hcut⟩ := cut_of_readPieces _ hstart hrun
  rw [hts]
  exact hcut

/-- **The tokens of a text and the text between them make up the text.**  Every token has its
characters at the place that it names, and cannot be made longer there; between the tokens there are
blanks, line ends and comments only; inferred semicolons stand at line ends.  The places of the
tokens increase, and the end of the input stands last, behind the last character, and nowhere else.
-/
theorem tokensOf_partitions {source : String} {tokens : List Token}
    (h : (tokensOf source).result = .ok tokens) :
    Cut [] source.toList tokens ∧
      (tokens.Pairwise fun t t' => t.pos.Before t'.pos) ∧
      ∃ ts, tokens = ts ++ [.endOfInput (.behind source.toList)] ∧ ∀ t ∈ ts, t.kind ≠ .eof := by
  have hcut := cut_of_scan (Traced.result_mapError_eq_ok.1 h)
  exact ⟨hcut, hcut.pairwise_before, hcut.exists_closed⟩

/-- A comment with a character of two bytes, a carriage return behind it, and an inferred semicolon
in front of the line end. -/
theorem tokensOf_partitions_comment :
    ∃ tokens, (tokensOf "a<=b // é\r\n\t7").result = .ok tokens ∧
      tokens = [⟨⟨.ident, "a"⟩, ⟨1, 1⟩⟩, ⟨.reserved "<=", ⟨1, 2⟩⟩, ⟨⟨.ident, "b"⟩, ⟨1, 4⟩⟩,
        ⟨.reserved ";", ⟨1, 12⟩⟩, ⟨⟨.num, "7"⟩, ⟨2, 2⟩⟩, .endOfInput ⟨2, 3⟩] ∧
      Cut [] "a<=b // é\r\n\t7".toList tokens := by
  have hread : (tokensOf "a<=b // é\r\n\t7").result = .ok
      [⟨⟨.ident, "a"⟩, ⟨1, 1⟩⟩, ⟨.reserved "<=", ⟨1, 2⟩⟩, ⟨⟨.ident, "b"⟩, ⟨1, 4⟩⟩,
        ⟨.reserved ";", ⟨1, 12⟩⟩, ⟨⟨.num, "7"⟩, ⟨2, 2⟩⟩, .endOfInput ⟨2, 3⟩] :=
    eq_ok_of_toOption (by decide +kernel)
  exact ⟨_, hread, rfl, (tokensOf_partitions hread).1⟩

end MicroGo
