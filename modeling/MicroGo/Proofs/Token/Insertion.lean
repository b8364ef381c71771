import Mathlib.Logic.Relation
import MicroGo.Proofs.Token.Foreign

/-!
# Blanks and comments

Blanks and comments mean nothing.  More of them may be put into a text at any point that does not
lie within a token or within the two slashes that open a comment, and a comment may be put behind a
blank at the end of any line: the tokens of the text then say what they said before, and only the
places at which they stand are others (`tokensOf_widened`).

## What matters in a text

Blanks and comments are cut off from a text like everything else, and then passed over.  The other
pieces are what matters (`significant`).  Texts in which the same matters have tokens with the same
lexemes, on the same lines (`view_of_significant`).

## What an insertion may disturb

The character behind a lexeme decides where the lexeme ends.  A blank ends every lexeme, and so a
blank between two lexemes leaves both of them as they are.  Within a comment a blank becomes a part
of the comment.  That no comment begins or ends because of the insertion is what the condition on
slashes is for: the slashes that open a comment are the first ones of their line that stand
together (`Cut.significant_insert`).
-/

namespace MicroGo

/-! ## Points of a text -/

/-- The place lies strictly inside of the token. -/
def Token.Holds (t : Token) (pos : Position) : Prop :=
  t.pos.line = pos.line ∧ t.pos.column < pos.column ∧
    pos.column < t.pos.column + Position.byteCount t.text.toList

instance (t : Token) (pos : Position) : Decidable (t.Holds pos) :=
  inferInstanceAs (Decidable (_ ∧ _ ∧ _))

/-- The part of a text behind its last line end. -/
def lastLine (text : List Char) : List Char :=
  text.rtakeWhile (· ≠ '\n')

/-- **The point between `front` and `back` parts the two slashes that open a comment.**  These are
the first two slashes of a line that stand together. -/
def PartsSlashes (front back : List Char) : Prop :=
  front.getLast? = some '/' ∧ back.head? = some '/' ∧ ¬['/', '/'] <:+: lastLine front

instance (front back : List Char) : Decidable (PartsSlashes front back) :=
  inferInstanceAs (Decidable (_ ∧ _ ∧ _))

/-- **Something that means nothing is put into a text.** -/
inductive Widens : (source source' : String) → Prop where
  /-- Blanks, at a point that lies neither within a token nor between the slashes that open a
  comment. -/
  | blanks {front text back : String} (blank : ∀ c ∈ text.toList, Piece.isBlank c)
      (outside : ∀ tokens, (tokensOf (front ++ back)).result = .ok tokens →
        ∀ t ∈ tokens, ¬t.Holds (.behind front.toList))
      (apart : ¬PartsSlashes front.toList back.toList) :
      Widens (front ++ back) (front ++ text ++ back)
  /-- A blank and a comment, at the end of a line or of the text. -/
  | comment {front text back : String} (line : '\n' ∉ text.toList)
      (ends : ∀ c ∈ back.toList.head?, c = '\n') :
      Widens (front ++ back) (front ++ " //" ++ text ++ back)

/-! ## What matters in a text -/

/-- Pieces that are passed over. -/
def Piece.isSilent : Piece → Bool
  | blank _ | comment _ => true
  | _ => false

/-- The pieces of a text that matter: all but blanks and comments. -/
def significant (cs : List Char) : List Piece :=
  (pieces cs).filter fun p => !p.isSilent

section

variable {c : Char} {cs text rest : List Char} {p : Piece} {l : Lexeme}

theorem significant_of_split (h : Piece.split c cs = (p, rest)) :
    significant (c :: cs) = (if p.isSilent then [] else [p]) ++ significant rest := by
  rw [significant, pieces, h, List.filter_cons, significant]
  cases p.isSilent with
  | true => rfl
  | false => rfl

/-- Blanks at the front may be left away. -/
theorem significant_blank (hc : Piece.isBlank c) : significant (c :: cs) = significant cs := by
  have hfirst {d : Char} (hd : Piece.isBlank d) (ds : List Char) :
      significant (d :: ds) = significant (ds.dropWhile Piece.isBlank) := by
    refine significant_of_split (p := .blank (d :: ds.takeWhile Piece.isBlank)) ?_
    rw [Piece.split, if_pos hd]
    rfl
  rw [hfirst hc]
  cases cs with
  | nil => rfl
  | cons d ds =>
    by_cases hd : Piece.isBlank d
    · rw [List.dropWhile_cons_of_pos hd, hfirst hd]
    · rw [List.dropWhile_cons_of_neg hd]

theorem significant_blanks (h : ∀ c ∈ text, Piece.isBlank c) :
    significant (text ++ rest) = significant rest := by
  induction text with
  | nil => rfl
  | cons c cs ih =>
    obtain ⟨hc, hcs⟩ := List.forall_mem_cons.1 h
    rw [List.cons_append, significant_blank hc, ih hcs]

/-- Comments may be left away. -/
theorem significant_comment (line : '\n' ∉ text) (ends : ∀ d ∈ rest.head?, d = '\n') :
    significant ('/' :: '/' :: text ++ rest) = significant rest := by
  have hrun : Piece.run (· ≠ '\n') '/' (('/' :: text) ++ rest) = ('/' :: '/' :: text, rest) := by
    refine Piece.run_exact (fun d hd => ?_) fun d hd => ?_
    · rcases List.mem_cons.1 hd with rfl | hd
      · decide
      · exact decide_eq_true fun h => line (h ▸ hd)
    · rw [ends d hd]
      decide
  have hsplit :
      Piece.split '/' (('/' :: text) ++ rest) = (.comment ('/' :: '/' :: text), rest) := by
    rw [Piece.split, if_neg (by decide), if_neg (by decide), if_pos (by simp), hrun]
  exact significant_of_split hsplit

theorem significant_lineEnd : significant ('\n' :: rest) = .lineEnd :: significant rest :=
  significant_of_split rfl

/-! ### Lexemes -/

namespace Piece

theorem isBlank_of_prints (h : '!' ≤ c ∧ c ≤ '~') : isBlank c = false := by
  by_contra hblank
  simp only [isBlank, Bool.not_eq_false, Bool.or_eq_true, decide_eq_true_eq] at hblank
  rcases hblank with (rfl | rfl) | rfl <;> exact absurd h.1 (by decide)

theorem ne_lineEnd_of_prints (h : '!' ≤ c ∧ c ≤ '~') : c ≠ '\n' := by
  rintro rfl
  exact absurd h.1 (by decide)

theorem isDigit_of_isWordStart (h : isWordStart c) : c.isDigit = false := by
  by_contra hdigit
  have hrange {low high : UInt32} : (decide (c.val ≥ low) && decide (c.val ≤ high)) = true ↔
      low.toNat ≤ c.toNat ∧ c.toNat ≤ high.toNat := by
    rw [Bool.and_eq_true, decide_eq_true_iff, decide_eq_true_iff]
    rfl
  have hlow : 48 ≤ c.toNat ∧ c.toNat ≤ 57 := hrange.1 (Bool.eq_true_of_not_eq_false hdigit)
  rcases Bool.or_eq_true_iff.1 h with h | h
  · rcases Bool.or_eq_true_iff.1 h with h | h
    · have hupper : 65 ≤ c.toNat ∧ c.toNat ≤ 90 := of_decide_eq_true h
      omega
    · have hlower : 97 ≤ c.toNat ∧ c.toNat ≤ 122 := hrange.1 h
      omega
  · obtain rfl := of_decide_eq_true h
    exact absurd hlow (by decide)

theorem split_word (hstart : isWordStart c) (hparts : ∀ d ∈ cs, isWordPart d)
    (hends : ∀ d ∈ rest.head?, isWordPart d = false) :
    split c (cs ++ rest) = (.lexeme (.ofWord (String.ofList (c :: cs))), rest) := by
  have hprints := prints_of_isWordPart (isWordPart_of_isWordStart hstart)
  have hslash : c ≠ '/' := by
    rintro rfl
    exact absurd hstart (by decide)
  rw [split, if_neg (by simp [isBlank_of_prints hprints]), if_neg (ne_lineEnd_of_prints hprints),
    if_neg (by simp [hslash]), if_neg (by simp [isDigit_of_isWordStart hstart]), if_pos hstart,
    run_exact hparts hends]

/-- **A lexeme that can be written in front of `rest` is cut off there.**  The underscore is a part
of words and no sign. -/
theorem split_of_written (h : l.WrittenBefore rest) (hl : l ≠ .reserved "_") :
    ∃ c cs, l.text.toList = c :: cs ∧ split c (cs ++ rest) = (.lexeme l, rest) := by
  cases h with
  | @num c cs digit digits ends =>
    have hprints := prints_of_isDigit digit
    have hslash : c ≠ '/' := by
      rintro rfl
      exact absurd digit (by decide)
    refine ⟨c, cs, String.toList_ofList, ?_⟩
    rw [split, if_neg (by simp [isBlank_of_prints hprints]), if_neg (ne_lineEnd_of_prints hprints),
      if_neg (by simp [hslash]), if_pos digit, run_exact digits ends]
    rfl
  | @name c cs start parts other ends =>
    refine ⟨c, cs, String.toList_ofList, ?_⟩
    rw [split_word start parts ends, Lexeme.ofWord, if_neg other]
  | @keyword text mem ends =>
    have hall : ∀ text ∈ Lexeme.keywords,
        text.toList.head?.any isWordStart && text.toList.tail.all isWordPart := by decide
    obtain ⟨hhead, htail⟩ := Bool.and_eq_true_iff.1 (hall text mem)
    obtain ⟨c, hc, hstart⟩ := (Option.any_eq_true _ _).1 hhead
    obtain ⟨cs, hcs⟩ := List.head?_eq_some_iff.1 hc
    rw [hcs, List.tail_cons, List.all_eq_true] at htail
    refine ⟨c, cs, hcs, ?_⟩
    rw [split_word hstart htail ends, ← hcs, String.ofList_toList, Lexeme.ofWord, if_pos mem]
  | @equals c start =>
    refine ⟨c, ['='], String.toList_ofList, ?_⟩
    simp only [beginsEquals, Bool.or_eq_true, decide_eq_true_eq] at start
    rcases start with ((rfl | rfl) | rfl) | rfl <;> rfl
  | @sign c sign equals slash =>
    refine ⟨c, [], String.toList_ofList, ?_⟩
    have hprints := prints_of_isPunctuation sign
    have hother : c.isAlphanum = false := by
      simp only [isPunctuation, Bool.and_eq_true, Bool.not_eq_true'] at sign
      exact sign.2
    obtain ⟨halpha, hdigit⟩ := Bool.or_eq_false_iff.1 hother
    have hscore : c ≠ '_' := by
      rintro rfl
      exact hl rfl
    have hslash : ¬(c = '/' && decide (rest.head? = some '/')) = true := by
      simpa using slash
    have hequals : ¬(beginsEquals c && decide (rest.head? = some '=')) = true := by
      simpa using equals
    rw [List.nil_append, split, if_neg (by simp [isBlank_of_prints hprints]),
      if_neg (ne_lineEnd_of_prints hprints), if_neg hslash, if_neg (by simp [hdigit]),
      if_neg (by simp [isWordStart, halpha, hscore]), if_neg hequals, if_pos sign]
    rfl

/-- The underscore is not cut off as a sign. -/
theorem ne_underscore_of_split (h : (split c cs).1 = .lexeme l) : l ≠ .reserved "_" := by
  unfold split at h
  split at h
  · cases h
  split at h
  · cases h
  split at h
  · cases h
  split at h
  · cases h
    simp
  split at h
  · cases h
    unfold Lexeme.ofWord
    split
    next hmem =>
      intro hscore
      rw [(Lexeme.mk.inj hscore).2] at hmem
      exact absurd hmem (by decide)
    · simp
  next hstart =>
  split at h
  · cases h
    intro hscore
    have htext := congrArg (fun l : Lexeme => l.text.toList.length) hscore
    simp at htext
  split at h
  next hsign =>
    cases h
    intro hscore
    have htext := congrArg (fun l : Lexeme => l.text.toList) hscore
    rw [String.toList_ofList] at htext
    have hc : c = '_' := (List.cons.inj htext).1
    exact hstart (by rw [hc]; decide)
  · cases h

end Piece

theorem significant_lexeme (h : l.WrittenBefore rest) (hl : l ≠ .reserved "_") :
    significant (l.text.toList ++ rest) = .lexeme l :: significant rest := by
  obtain ⟨c, cs, htext, hsplit⟩ := Piece.split_of_written h hl
  rw [htext, List.cons_append]
  exact significant_of_split hsplit

/-- A blank ends every lexeme. -/
theorem Lexeme.WrittenBefore.of_head? (h : l.WrittenBefore rest)
    {rest' : List Char} (hrest : ∀ d ∈ rest'.head?, d ∈ rest.head? ∨ Piece.isBlank d) :
    l.WrittenBefore rest' := by
  have hclass {p : Char → Bool} (hp : ∀ d, Piece.isBlank d → p d = false)
      (ends : ∀ d ∈ rest.head?, p d = false) : ∀ d ∈ rest'.head?, p d = false := fun d hd =>
    (hrest d hd).elim (ends d) (hp d)
  have hother {d : Char} (hd : ¬Piece.isBlank d) (hne : rest.head? ≠ some d) :
      rest'.head? ≠ some d := fun hhead => (hrest d hhead).elim hne hd
  have hblank {p : Char → Bool} (hp : p ' ' = false ∧ p '\t' = false ∧ p '\r' = false) (d : Char)
      (hd : Piece.isBlank d) : p d = false := by
    simp only [Piece.isBlank, Bool.or_eq_true, decide_eq_true_eq] at hd
    rcases hd with (rfl | rfl) | rfl
    · exact hp.1
    · exact hp.2.1
    · exact hp.2.2
  cases h with
  | num digit digits ends => exact .num digit digits (hclass (hblank (by decide)) ends)
  | name start parts other ends => exact .name start parts other (hclass (hblank (by decide)) ends)
  | keyword mem ends => exact .keyword mem (hclass (hblank (by decide)) ends)
  | equals start => exact .equals start
  | sign sign equals slash =>
    exact .sign sign (fun hc => hother (by decide) (equals hc))
      fun hc => hother (by decide) (slash hc)

end

/-! ## Reading what matters -/

namespace Scan

variable {s t : Scan}

/-- What reading has come to, apart from columns: the number of the line, and the lexemes so far,
each with its line. -/
def view (s : Scan) : Nat × List (Lexeme × Nat) :=
  (s.pos.line, s.tokens.toList.map fun t => (t.toLexeme, t.pos.line))

theorem view_take (h : s.view = t.view) (l : Lexeme) : (s.take l).view = (t.take l).view := by
  have hpush (u : Scan) : (u.take l).view = (u.view.1, u.view.2 ++ [(l, u.view.1)]) := by
    rw [view, take, Array.toList_push, List.map_append]
    rfl
  rw [hpush, hpush, h]

/-- Columns have no part in whether a semicolon is inferred. -/
theorem isSome_unfinished? (s : Scan) :
    s.unfinished?.isSome =
      s.view.2.getLast?.any fun x => x.2 = s.view.1 && x.1.endsStatement := by
  rw [unfinished?, ← Array.getLast?_toList, view, List.getLast?_map]
  cases s.tokens.toList.getLast? with
  | none => rfl
  | some x =>
    show (Option.filter _ (some x)).isSome = (decide (x.pos.line = s.pos.line) && x.endsStatement)
    rw [Option.filter_some]
    split
    next hends => exact hends.symm
    next hends => exact (Bool.eq_false_iff.2 hends).symm

theorem view_endLine (h : s.view = t.view) : s.endLine.view = t.endLine.view := by
  have hend (u : Scan) : u.endLine.view =
      (u.view.1 + 1,
        u.view.2 ++ if u.unfinished?.isSome then [(.reserved ";", u.view.1)] else []) := by
    rw [view, pos_endLine, tokens_endLine, List.map_append]
    cases u.unfinished? with
    | none => rfl
    | some last => rfl
  rw [hend, hend, isSome_unfinished?, isSome_unfinished?, h]

/-- **Only what matters has a part in the reading.** -/
theorem view_readPieces (ps : List Piece) (h : s.view = t.view) :
    (s.readPieces ps).toOption.map view =
      (t.readPieces (ps.filter fun p => !p.isSilent)).toOption.map view := by
  induction ps generalizing s t with
  | nil => exact congrArg some h
  | cons p ps ih =>
    rw [readPieces_cons]
    cases p with
    | blank text => exact ih (s := s.skip text) h
    | comment text => exact ih (s := s.skip text) h
    | lineEnd => exact ih (view_endLine h)
    | lexeme l => exact ih (view_take h l)
    | «foreign» c => rfl

end Scan

/-- Texts in which the same matters have the same lexemes on the same lines. -/
theorem view_of_significant {cs cs' : List Char} (h : significant cs = significant cs') :
    (({} : Scan).readPieces (pieces cs)).toOption.map Scan.view =
      (({} : Scan).readPieces (pieces cs')).toOption.map Scan.view := by
  rw [Scan.view_readPieces _ rfl, Scan.view_readPieces (pieces cs') rfl]
  exact congrArg (fun ps => (({} : Scan).readPieces ps).toOption.map Scan.view) h

theorem exists_tokens_of_significant {source source' : String} {tokens : List Token}
    (h : significant source'.toList = significant source.toList)
    (htokens : (tokensOf source).result = .ok tokens) :
    ∃ tokens', (tokensOf source').result = .ok tokens' ∧
      tokens'.map Token.toLexeme = tokens.map Token.toLexeme := by
  obtain ⟨s, hrun, rfl⟩ := exists_readPieces_of_scan (Traced.result_mapError_eq_ok.1 htokens)
  have hview := view_of_significant h
  rw [hrun] at hview
  cases hrun' : ({} : Scan).readPieces (pieces source'.toList) with
  | error e =>
    rw [hrun'] at hview
    cases hview
  | ok s' =>
    rw [hrun'] at hview
    have hlexemes : s'.tokens.toList.map Token.toLexeme = s.tokens.toList.map Token.toLexeme := by
      have hsaid := congrArg (List.map Prod.fst) (Prod.mk.inj (Option.some.inj hview)).2
      rwa [List.map_map, List.map_map] at hsaid
    refine ⟨s'.tokens.toList ++ [.endOfInput s'.pos], Traced.result_mapError_eq_ok.2 ?_, ?_⟩
    · rw [result_scan, hrun']
      rfl
    · rw [List.map_append, hlexemes, List.map_append]
      rfl

/-! ## Slashes -/

theorem lastLine_lineEnd (front : List Char) : lastLine (front ++ ['\n']) = [] :=
  List.rtakeWhile_concat_neg _ _ _ (by simp)

theorem lastLine_append (front : List Char) {text : List Char} (h : '\n' ∉ text) :
    lastLine (front ++ text) = lastLine front ++ text := by
  induction text using List.reverseRecOn with
  | nil => rw [List.append_nil, List.append_nil]
  | append_singleton text c ih =>
    obtain ⟨htext, hc⟩ := not_or.1 fun hmem => h (List.mem_append.2 hmem)
    have hne : c ≠ '\n' := fun heq => hc (List.mem_singleton.2 heq.symm)
    rw [← List.append_assoc, ← List.append_assoc, ← ih htext]
    exact List.rtakeWhile_concat_pos _ _ _ (by simp [hne])

/-- Two slashes stand together in one of two texts, or where they meet. -/
theorem slashes_infix_append_iff {xs ys : List Char} :
    ['/', '/'] <:+: xs ++ ys ↔ ['/', '/'] <:+: xs ∨ ['/', '/'] <:+: ys ∨
      (xs.getLast? = some '/' ∧ ys.head? = some '/') := by
  induction xs with
  | nil => simp
  | cons x xs ih =>
    rw [List.cons_append, slashes_infix_cons, slashes_infix_cons, ih]
    cases xs with
    | nil => simpa using or_comm
    | cons y xs =>
      rw [List.getLast?_cons_cons]
      exact or_assoc.symm

/-- **The character ahead of `done` stands outside of comments.**  At the end of a line this says
nothing. -/
def Outside (done rest : List Char) : Prop :=
  ∀ c ∈ rest.head?, c ≠ '\n' → ¬['/', '/'] <:+: lastLine done ++ [c]

theorem outside_lineEnd (done rest : List Char) : Outside (done ++ ['\n']) rest := by
  intro c _ _
  rw [lastLine_lineEnd, slashes_infix_append_iff]
  simp [slashes_infix_cons]

/-- What is passed keeps the next character outside of comments, unless two slashes meet in it or at
its end. -/
theorem Outside.append {done text rest : List Char} (h : Outside done (text ++ rest))
    (htext : text ≠ []) (hline : '\n' ∉ text)
    (hslash : '/' ∉ text ∨ text = ['/'] ∧ rest.head? ≠ some '/') : Outside (done ++ text) rest := by
  obtain ⟨c, cs, rfl⟩ := List.exists_cons_of_ne_nil htext
  have hc := h c rfl fun heq => hline (heq ▸ List.mem_cons_self)
  rw [slashes_infix_append_iff, not_or, not_or] at hc
  have hinside : ¬['/', '/'] <:+: c :: cs := fun hmem => by
    rw [← List.append_nil (c :: cs)] at hmem
    have hnil : ['/', '/'] <:+: [] :=
      (slashes_infix_append (hslash.imp_right fun h => ⟨h.1, by simp⟩)).1 hmem
    simp at hnil
  intro d hd _
  rw [lastLine_append done hline, slashes_infix_append_iff, slashes_infix_append_iff]
  rintro ((hmem | hmem | hmem) | hmem | ⟨hlast, hhead⟩)
  · exact hc.1 hmem
  · exact hinside hmem
  · exact hc.2.2 hmem
  · simp [slashes_infix_cons] at hmem
  · obtain rfl : d = '/' := Option.some.inj hhead
    rw [List.getLast?_append, List.getLast?_cons] at hlast
    rcases hslash with hslash | ⟨-, hne⟩
    · exact hslash (List.mem_of_getLast? (by rw [List.getLast?_cons]; exact hlast))
    · exact hne hd

theorem Outside.blank {done rest : List Char} {c : Char} (h : Outside done (c :: rest))
    (hc : Piece.isBlank c) : Outside (done ++ [c]) rest := by
  have hblank : ∀ d ∈ [c], Piece.isBlank d := fun d hd => List.mem_singleton.1 hd ▸ hc
  have hc : '\n' ∉ [c] := fun hmem => absurd (hblank _ hmem) (by decide)
  exact h.append (List.cons_ne_nil c []) hc (passes_blank hblank).slash

theorem Outside.lexeme {done rest : List Char} {l : Lexeme}
    (h : Outside done (l.text.toList ++ rest)) (hl : l.WrittenBefore rest) :
    Outside (done ++ l.text.toList) rest :=
  h.append hl.toWritten.text_ne_nil hl.toWritten.lineEnd_notMem (passes_lexeme hl).slash

/-! ## Insertions -/

/-- What can be put in front of `back`: it begins with a blank, does not end the line, and nothing
in it matters. -/
structure Silent (text back : List Char) : Prop where
  blank : ∀ c ∈ text.head?, Piece.isBlank c
  line : '\n' ∉ text
  silent : significant (text ++ back) = significant back

theorem silent_blanks {text : List Char} (h : ∀ c ∈ text, Piece.isBlank c) (back : List Char) :
    Silent text back where
  blank c hc := h c (List.mem_of_mem_head? hc)
  line hmem := absurd (h _ hmem) (by decide)
  silent := significant_blanks h

theorem silent_comment {text back : List Char} (line : '\n' ∉ text)
    (ends : ∀ c ∈ back.head?, c = '\n') : Silent (' ' :: '/' :: '/' :: text) back where
  blank c hc := Option.some.inj hc ▸ rfl
  line := by simp [line]
  silent := by
    rw [List.cons_append, significant_blank (by decide), significant_comment line ends]

/-- A point strictly inside of the text of a token is a place strictly inside of the token. -/
theorem Token.holds_behind {l : Lexeme} {done front more : List Char}
    (htext : l.text.toList = front ++ more) (hline : '\n' ∉ l.text.toList) (hfront : front ≠ [])
    (hmore : more ≠ []) : (Token.mk l (.behind done)).Holds (.behind (done ++ front)) := by
  have hbytes {text : List Char} (h : text ≠ []) : 0 < Position.byteCount text := by
    obtain ⟨c, cs, rfl⟩ := List.exists_cons_of_ne_nil h
    exact Nat.add_pos_left c.utf8Size_pos _
  have hfrontLine : '\n' ∉ front := fun hmem => hline (htext ▸ List.mem_append_left _ hmem)
  have hcount : Position.byteCount l.text.toList =
      Position.byteCount front + Position.byteCount more := by
    rw [htext, Position.byteCount_append]
  have hfront' := hbytes hfront
  have hmore' := hbytes hmore
  rw [Position.behind_append done hfrontLine]
  refine ⟨rfl, ?_, ?_⟩
  · show (Position.behind done).column < (Position.behind done).column + Position.byteCount front
    omega
  · show (Position.behind done).column + Position.byteCount front <
      (Position.behind done).column + Position.byteCount l.text.toList
    omega

section

variable {inner rest front text back : List Char} {l : Lexeme}

/-- What is put behind the slashes of a comment becomes a part of it, or stands behind it. -/
theorem significant_insert_comment (line : '\n' ∉ inner) (ends : ∀ c ∈ rest.head?, c = '\n')
    (htext : Silent text back) (hrest : inner ++ rest = front ++ back)
    (hbehind : ∀ more, front = inner ++ more → rest = more ++ back →
      significant (more ++ text ++ back) = significant (more ++ back)) :
    significant ('/' :: '/' :: front ++ text ++ back) =
      significant ('/' :: '/' :: front ++ back) := by
  -- the point lies within the comment or at its end
  have hwithin (more : List Char) (hinner : inner = front ++ more) (hback : back = more ++ rest) :
      significant ('/' :: '/' :: front ++ text ++ back) =
        significant ('/' :: '/' :: front ++ back) := by
    have hline : '\n' ∉ front ++ text ++ more := by
      rw [hinner, List.mem_append, not_or] at line
      simp [line, htext.line]
    have hleft : '/' :: '/' :: front ++ text ++ back =
        '/' :: '/' :: (front ++ text ++ more) ++ rest := by simp [hback]
    have hright : '/' :: '/' :: front ++ back = '/' :: '/' :: inner ++ rest := by
      simp [hback, hinner]
    rw [hleft, hright, significant_comment hline ends, significant_comment line ends]
  rcases List.append_eq_append_iff.1 hrest with ⟨more, hfront, hmore⟩ | ⟨more, hinner, hback⟩
  · cases more with
    | nil => exact hwithin [] (by rw [hfront, List.append_nil, List.append_nil]) hmore.symm
    | cons c more =>
      have hends (cs : List Char) : ∀ d ∈ (c :: more ++ cs).head?, d = '\n' := fun d hd =>
        ends d (hmore ▸ hd)
      have hsplit (cs : List Char) : '/' :: '/' :: front ++ cs =
          '/' :: '/' :: inner ++ (c :: more ++ cs) := by simp [hfront]
      rw [List.append_assoc, hsplit, hsplit, significant_comment line (hends _),
        significant_comment line (hends _), ← List.append_assoc]
      exact hbehind (c :: more) hfront hmore
  · exact hwithin more hinner hback

/-- What is put behind a lexeme leaves the lexeme as it is. -/
theorem significant_insert_lexeme (written : l.WrittenBefore (front ++ back))
    (hl : l ≠ .reserved "_") (htext : Silent text back)
    (hbehind : significant (front ++ text ++ back) = significant (front ++ back)) :
    significant (l.text.toList ++ front ++ text ++ back) =
      significant (l.text.toList ++ front ++ back) := by
  have hafter : l.WrittenBefore (front ++ text ++ back) := by
    refine written.of_head? fun d hd => ?_
    cases front with
    | cons c front => exact .inl hd
    | nil =>
      cases htext' : text with
      | nil =>
        rw [htext'] at hd
        exact .inl hd
      | cons c cs =>
        rw [htext'] at hd
        exact .inr (htext.blank d (by rw [htext']; exact hd))
  rw [List.append_assoc, List.append_assoc, ← List.append_assoc front, significant_lexeme hafter hl,
    hbehind, List.append_assoc, significant_lexeme written hl]

end

namespace Cut

variable {done rest : List Char} {tokens : List Token}

/-- **An insertion changes nothing that matters**, if its point lies neither within a token nor
between the slashes that open a comment.  At the end of a line no point lies within a token. -/
theorem significant_insert (h : Cut done rest tokens) {front text back : List Char}
    (htext : Silent text back) (hrest : rest = front ++ back)
    (hscore : ∀ t ∈ tokens, t.toLexeme ≠ .reserved "_")
    (houtside : ∀ t ∈ tokens, t.Holds (.behind (done ++ front)) → ∀ c ∈ back.head?, c = '\n')
    (hslashes : ¬PartsSlashes (done ++ front) back) (hopen : Outside done rest) :
    significant (front ++ text ++ back) = significant (front ++ back) := by
  induction h generalizing front with
  | done =>
    obtain ⟨rfl, rfl⟩ := List.append_eq_nil_iff.1 hrest.symm
    exact htext.silent
  | @blank done rest c tokens isBlank later ih =>
    cases front with
    | nil => exact htext.silent
    | cons d front =>
      obtain ⟨rfl, rfl⟩ := List.cons.inj hrest
      rw [← List.singleton_append, ← List.append_assoc] at houtside hslashes
      rw [List.cons_append, List.cons_append, List.cons_append, significant_blank isBlank,
        significant_blank isBlank]
      exact ih rfl hscore houtside hslashes (hopen.blank isBlank)
  | @comment done inner rest tokens line ends later ih =>
    rcases front with - | ⟨d, - | ⟨d', front⟩⟩
    · exact htext.silent
    · -- the point lies between the slashes that open the comment
      obtain ⟨rfl, rfl⟩ := List.cons.inj hrest
      refine absurd ⟨?_, rfl, ?_⟩ hslashes
      · rw [List.getLast?_concat]
      · rw [lastLine_append done (by decide)]
        exact hopen '/' rfl (by decide)
    · obtain ⟨hd, hrest⟩ := List.cons.inj hrest
      obtain ⟨hd', hrest⟩ := List.cons.inj hrest
      subst hd hd'
      refine significant_insert_comment line ends htext (by simpa using hrest)
        fun more hfront hmore => ?_
      have hdone : done ++ '/' :: '/' :: inner ++ more = done ++ '/' :: '/' :: front := by
        rw [hfront, List.append_assoc]
        rfl
      exact ih hmore hscore (hdone ▸ houtside) (hdone ▸ hslashes) fun c hc hne =>
        absurd (ends c hc) hne
  | @lineEnd done rest tokens later ih =>
    cases front with
    | nil => exact htext.silent
    | cons d front =>
      obtain ⟨rfl, rfl⟩ := List.cons.inj hrest
      rw [← List.singleton_append, ← List.append_assoc] at houtside hslashes
      rw [List.cons_append, List.cons_append, List.cons_append, significant_lineEnd,
        significant_lineEnd, ih rfl hscore houtside hslashes (outside_lineEnd _ _)]
  | @inferred done rest tokens later ih =>
    cases front with
    | nil => exact htext.silent
    | cons d front =>
      obtain ⟨rfl, rfl⟩ := List.cons.inj hrest
      have hlater := (List.forall_mem_cons.1 houtside).2
      rw [← List.singleton_append, ← List.append_assoc] at hlater hslashes
      rw [List.cons_append, List.cons_append, List.cons_append, significant_lineEnd,
        significant_lineEnd,
        ih rfl (List.forall_mem_cons.1 hscore).2 hlater hslashes (outside_lineEnd _ _)]
  | @written done rest l tokens written later ih =>
    obtain ⟨hl, hscore⟩ := List.forall_mem_cons.1 hscore
    obtain ⟨hends, houtside⟩ := List.forall_mem_cons.1 houtside
    have hline := written.toWritten.lineEnd_notMem
    -- the point lies behind the lexeme
    have hbehind (more : List Char) (hfront : front = l.text.toList ++ more)
        (hmore : rest = more ++ back) :
        significant (front ++ text ++ back) = significant (front ++ back) := by
      subst hfront hmore
      rw [← List.append_assoc] at houtside hslashes
      exact significant_insert_lexeme written hl htext
        (ih rfl hscore houtside hslashes (hopen.lexeme written))
    rcases List.append_eq_append_iff.1 hrest with ⟨more, hfront, hmore⟩ | ⟨more, hlexeme, hback⟩
    · exact hbehind more hfront hmore
    · by_cases hfirst : front = []
      · rw [hfirst]
        exact htext.silent
      · by_cases hlast : more = []
        · rw [hlast, List.append_nil] at hlexeme
          exact hbehind [] (by rw [hlexeme, List.append_nil]) (by rw [hback, hlast]; rfl)
        · obtain ⟨c, more, rfl⟩ := List.exists_cons_of_ne_nil hlast
          have hc := hends (Token.holds_behind hlexeme hline hfirst hlast) c (by rw [hback]; rfl)
          exact absurd (by rw [hlexeme, ← hc]; simp) hline

end Cut

/-! ## The tokens of a text -/

theorem ne_underscore_of_tokensOf {source : String} {tokens : List Token}
    (h : (tokensOf source).result = .ok tokens) :
    ∀ t ∈ tokens, t.toLexeme ≠ .reserved "_" := by
  obtain ⟨s, hrun, rfl⟩ := exists_readPieces_of_scan (Traced.result_mapError_eq_ok.1 h)
  have hempty : Scan.All (· ≠ .reserved "_") {} := fun t ht => absurd ht List.not_mem_nil
  have hall := hempty.readPieces (by decide) (fun l hl => by
    obtain ⟨c, rest, hsplit⟩ := exists_split_of_mem_pieces _ hl
    exact Piece.ne_underscore_of_split hsplit) hrun
  intro t ht
  rcases List.mem_append.1 ht with ht | ht
  · exact hall t ht
  · rw [List.mem_singleton.1 ht, Token.endOfInput]
    simp

theorem Widens.exists_tokens {source source' : String} {tokens : List Token}
    (h : Widens source source') (htokens : (tokensOf source).result = .ok tokens) :
    ∃ tokens', (tokensOf source').result = .ok tokens' ∧
      tokens'.map Token.toLexeme = tokens.map Token.toLexeme := by
  refine exists_tokens_of_significant ?_ htokens
  have hcut := cut_of_scan (Traced.result_mapError_eq_ok.1 htokens)
  have hscore := ne_underscore_of_tokensOf htokens
  have hopen (rest : List Char) : Outside [] rest := by
    intro c _ _
    simp [lastLine, slashes_infix_cons]
  cases h with
  | @blanks front text back blank outside apart =>
    rw [String.toList_append] at hcut
    rw [String.toList_append, String.toList_append, String.toList_append]
    exact hcut.significant_insert (silent_blanks blank _) rfl hscore
      (fun t ht hholds => absurd hholds (outside tokens htokens t ht)) apart (hopen _)
  | @comment front text back line ends =>
    rw [String.toList_append] at hcut
    rw [String.toList_append, String.toList_append, String.toList_append, String.toList_append,
      List.append_assoc front.toList]
    refine hcut.significant_insert (silent_comment line ends) rfl hscore (fun _ _ _ => ends) ?_
      (hopen _)
    rintro ⟨-, hhead, -⟩
    exact absurd (ends _ hhead) (by decide)

/-- **Blanks and comments mean nothing.**  If a text has tokens, and blanks are put into it at
points that lie neither within a token nor between the slashes that open a comment, and comments
behind a blank at the ends of lines, any number of times, then the text that results has tokens too,
and they have the same kinds and texts. -/
theorem tokensOf_widened {source source' : String} {tokens : List Token}
    (h : (tokensOf source).result = .ok tokens)
    (hwide : Relation.ReflTransGen Widens source source') :
    ∃ tokens', (tokensOf source').result = .ok tokens' ∧
      tokens'.map Token.toLexeme = tokens.map Token.toLexeme := by
  induction hwide with
  | refl => exact ⟨tokens, h, rfl⟩
  | tail _ hstep ih =>
    obtain ⟨mid, hmid, hsame⟩ := ih
    obtain ⟨tokens', htokens', hsame'⟩ := hstep.exists_tokens hmid
    exact ⟨tokens', htokens', hsame'.trans hsame⟩

/-- A tab and a carriage return between tokens, blanks within a comment, and a comment at the end of
a text that ends in a sign which could open one. -/
theorem tokensOf_widened_comment :
    ∃ tokens', (tokensOf "f(\ta\r<=b)// é  /x\n1/ // y").result = .ok tokens' ∧
      tokens'.map Token.toLexeme = [⟨.ident, "f"⟩, .reserved "(", ⟨.ident, "a"⟩, .reserved "<=",
        ⟨.ident, "b"⟩, .reserved ")", .reserved ";", ⟨.num, "1"⟩, .reserved "/", ⟨.eof, ""⟩] := by
  have hblanks (front text back : String) {source source' : String}
      (hsource : front ++ back = source) (hsource' : front ++ text ++ back = source')
      (blank : text.toList.all Piece.isBlank)
      (outside : (tokensOf (front ++ back)).result.toOption.all fun tokens =>
        tokens.all fun t => ¬t.Holds (.behind front.toList))
      (apart : ¬PartsSlashes front.toList back.toList) : Widens source source' := by
    subst hsource hsource'
    refine .blanks (List.all_eq_true.1 blank) (fun tokens htokens t ht => ?_) apart
    rw [htokens] at outside
    exact of_decide_eq_true (List.all_eq_true.1 outside t ht)
  have htab : Widens "f(a<=b)// é/x\n1/" "f(\ta<=b)// é/x\n1/" :=
    hblanks "f(" "\t" "a<=b)// é/x\n1/" (by decide +kernel)
      (by decide +kernel) (by decide +kernel) (by decide +kernel) (by decide +kernel)
  have hreturn : Widens "f(\ta<=b)// é/x\n1/" "f(\ta\r<=b)// é/x\n1/" :=
    hblanks "f(\ta" "\r" "<=b)// é/x\n1/" (by decide +kernel)
      (by decide +kernel) (by decide +kernel) (by decide +kernel) (by decide +kernel)
  have hinner : Widens "f(\ta\r<=b)// é/x\n1/" "f(\ta\r<=b)// é  /x\n1/" :=
    hblanks "f(\ta\r<=b)// é" "  " "/x\n1/" (by decide +kernel)
      (by decide +kernel) (by decide +kernel) (by decide +kernel) (by decide +kernel)
  have hcomment : Widens "f(\ta\r<=b)// é  /x\n1/" "f(\ta\r<=b)// é  /x\n1/ // y" := by
    have h : Widens ("f(\ta\r<=b)// é  /x\n1/" ++ "")
        ("f(\ta\r<=b)// é  /x\n1/" ++ " //" ++ " y" ++ "") := .comment (by decide) (by simp)
    exact h
  have htokens : (tokensOf "f(a<=b)// é/x\n1/").result = .ok
      [⟨⟨.ident, "f"⟩, ⟨1, 1⟩⟩, ⟨.reserved "(", ⟨1, 2⟩⟩, ⟨⟨.ident, "a"⟩, ⟨1, 3⟩⟩,
        ⟨.reserved "<=", ⟨1, 4⟩⟩, ⟨⟨.ident, "b"⟩, ⟨1, 6⟩⟩, ⟨.reserved ")", ⟨1, 7⟩⟩,
        ⟨.reserved ";", ⟨1, 15⟩⟩, ⟨⟨.num, "1"⟩, ⟨2, 1⟩⟩, ⟨.reserved "/", ⟨2, 2⟩⟩,
        .endOfInput ⟨2, 3⟩] :=
    eq_ok_of_toOption (by decide +kernel)
  exact tokensOf_widened htokens
    ((((Relation.ReflTransGen.single htab).tail hreturn).tail hinner).tail hcomment)

end MicroGo
