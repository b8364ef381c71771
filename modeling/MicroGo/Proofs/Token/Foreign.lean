import MicroGo.Proofs.Token.Bytes
import MicroGo.Proofs.Token.LineByLine

/-!
# Foreign characters

A text is refused by the scanner for one reason only: a character that is neither a blank nor one of
the printing characters of ASCII stands outside of all comments.  The complaint names the first such
character and its place.

On a line, what stands outside of comments is what has no two slashes in front of it.  That reading
finds the same comments is not for granted, since a slash may also be a sign: a sign is cut off only
if no second slash follows, so two slashes are always met together (`slash_cases`).
-/

namespace MicroGo

/-- **The character behind `front` on a line is foreign and stands outside of comments.** -/
structure ForeignBehind (front : List Char) (c : Char) : Prop where
  isForeign : Piece.isForeign c
  noComment : ¬['/', '/'] <:+: front

/-- The line has a foreign character outside of comments. -/
def HasForeign (line : String) : Prop :=
  ∃ front c back, line.toList = front ++ c :: back ∧ ForeignBehind front c

/-! ## Slashes -/

section

variable {c : Char} {cs text front rest : List Char} {p : Piece} {l : Lexeme}

theorem slashes_infix_cons :
    ['/', '/'] <:+: c :: cs ↔ (c = '/' ∧ cs.head? = some '/') ∨ ['/', '/'] <:+: cs := by
  rw [List.infix_cons_iff, Bytes.pair_prefix_iff]

/-- No two slashes meet where a piece ends. -/
theorem slashes_infix_append (h : '/' ∉ text ∨ text = ['/'] ∧ front.head? ≠ some '/') :
    ['/', '/'] <:+: text ++ front ↔ ['/', '/'] <:+: front := by
  rcases h with h | ⟨rfl, h⟩
  · induction text with
    | nil => rw [List.nil_append]
    | cons d ds ih =>
      obtain ⟨hd, hds⟩ := not_or.1 fun hmem => h (List.mem_cons.2 hmem)
      rw [List.cons_append, slashes_infix_cons, ih hds, or_iff_right fun hfirst => hd hfirst.1.symm]
  · rw [List.singleton_append, slashes_infix_cons, or_iff_right fun hfirst => h hfirst.2]

theorem Lexeme.WrittenBefore.slash_cases (h : l.WrittenBefore rest) :
    '/' ∉ l.text.toList ∨ l.text.toList = ['/'] ∧ rest.head? ≠ some '/' := by
  have hword : ¬Piece.isWordPart '/' := by decide
  cases h with
  | num digit digits =>
    refine .inl fun hmem => ?_
    rw [String.toList_ofList, List.mem_cons] at hmem
    rcases hmem with rfl | hmem
    · exact absurd digit (by decide)
    · exact absurd (digits _ hmem) (by decide)
  | name start parts other =>
    refine .inl fun hmem => ?_
    rw [String.toList_ofList, List.mem_cons] at hmem
    rcases hmem with rfl | hmem
    · exact absurd start (by decide)
    · exact hword (parts _ hmem)
  | keyword mem =>
    have hall : ∀ text ∈ keywords, '/' ∉ text.toList := by decide
    exact .inl (hall _ mem)
  | equals start =>
    refine .inl fun hmem => ?_
    rw [String.toList_ofList, List.mem_cons, List.mem_singleton] at hmem
    rcases hmem with rfl | hmem
    · exact absurd start (by decide)
    · exact absurd hmem (by decide)
  | @sign c sign equals slash =>
    rw [String.toList_ofList]
    by_cases hc : c = '/'
    · exact .inr ⟨by rw [hc], slash hc⟩
    · exact .inl fun hmem => hc (List.mem_singleton.1 hmem).symm

/-- A blank or a lexeme is read without a complaint, and does not hide a comment. -/
structure Passes (rest text : List Char) : Prop where
  known : ∀ d ∈ text, Piece.isForeign d = false
  slash : '/' ∉ text ∨ text = ['/'] ∧ rest.head? ≠ some '/'

theorem passes_blank (h : ∀ d ∈ text, Piece.isBlank d) : Passes rest text := by
  refine ⟨fun d hd => ?_, .inl fun hmem => absurd (h _ hmem) (by decide)⟩
  have hblank := h d hd
  simp only [Piece.isBlank, Bool.or_eq_true, decide_eq_true_eq] at hblank
  rcases hblank with (rfl | rfl) | rfl <;> decide

theorem passes_lexeme (h : l.WrittenBefore rest) : Passes rest l.text.toList :=
  ⟨fun d hd => Piece.isForeign_of_prints (h.toWritten.prints d hd), h.slash_cases⟩

/-- What is outside of comments stays so with a blank or a lexeme in front of it. -/
theorem Passes.foreignBehind {back : List Char} (h : Passes (front ++ c :: back) text)
    (hc : ForeignBehind front c) : ForeignBehind (text ++ front) c := by
  refine ⟨hc.isForeign, fun hmem => hc.noComment ((slashes_infix_append ?_).1 hmem)⟩
  refine h.slash.imp_right fun ⟨htext, hhead⟩ => ⟨htext, fun hfront => hhead ?_⟩
  rw [List.head?_append, hfront]
  rfl

/-- A foreign character stands behind every blank or lexeme that is passed. -/
theorem Passes.exists_of_foreignBehind {back : List Char} (h : Passes rest text)
    (hc : ForeignBehind front c) (hsplit : text ++ rest = front ++ c :: back) :
    ∃ front', rest = front' ++ c :: back ∧ ForeignBehind front' c := by
  rcases List.append_eq_append_iff.1 hsplit with ⟨front', rfl, hrest⟩ | ⟨more, htext, hmore⟩
  · refine ⟨front', hrest, hc.isForeign, fun hmem => hc.noComment ?_⟩
    exact hmem.trans (List.suffix_append text front').isInfix
  · cases more with
    | nil => exact ⟨[], hmore.symm, hc.isForeign, by simp⟩
    | cons d more =>
      obtain ⟨rfl, -⟩ := List.cons.inj hmore
      have hknown := h.known c (by rw [htext]; exact List.mem_append_right _ List.mem_cons_self)
      rw [hc.isForeign] at hknown
      cases hknown

/-- Nothing in a comment stands outside of comments, and its slashes are not foreign. -/
theorem not_foreignBehind_comment {back : List Char} (h : '/' :: '/' :: cs = front ++ c :: back) :
    ¬ForeignBehind front c := by
  intro hc
  cases front with
  | nil =>
    obtain ⟨rfl, -⟩ := List.cons.inj h
    exact absurd hc.isForeign (by decide)
  | cons d front =>
    obtain ⟨rfl, hmore⟩ := List.cons.inj h
    cases front with
    | nil =>
      obtain ⟨rfl, -⟩ := List.cons.inj hmore
      exact absurd hc.isForeign (by decide)
    | cons d front =>
      obtain ⟨rfl, -⟩ := List.cons.inj hmore
      exact hc.noComment (slashes_infix_cons.2 (.inl ⟨rfl, rfl⟩))

end

/-! ## Reading a line -/

namespace Scan

variable {s t : Scan} {e : Failure}

/-- **A line is refused for its first foreign character outside of comments.** -/
theorem exists_foreign_of_error (l : List Char) (hl : '\n' ∉ l)
    (hrun : s.readPieces (pieces l) = .error e) :
    ∃ front c back, l = front ++ c :: back ∧ ForeignBehind front c ∧
      (∀ d ∈ front, Piece.isForeign d = false) ∧ e = ⟨.foreignCharacter c, s.pos.after front⟩ := by
  induction l using pieces_induction generalizing s with
  | nil =>
    rw [pieces] at hrun
    cases hrun
  | piece p rest hfits hpieces ih =>
    rw [hpieces, readPieces_cons] at hrun
    have hrest : '\n' ∉ rest := fun hmem => hl (List.mem_append_right _ hmem)
    -- a piece that is passed stands in front of the character in question
    have hpass {u : Scan} (text : List Char) (hpos : u.pos = s.pos.after text)
        (htext : Passes rest text) (hrun : u.readPieces (pieces rest) = .error e) :
        ∃ front c back, text ++ rest = front ++ c :: back ∧ ForeignBehind front c ∧
          (∀ d ∈ front, Piece.isForeign d = false) ∧
            e = ⟨.foreignCharacter c, s.pos.after front⟩ := by
      obtain ⟨front, d, back, rfl, hforeign, hknown, he⟩ := ih hrest hrun
      refine ⟨text ++ front, d, back, (List.append_assoc ..).symm, htext.foreignBehind hforeign,
        fun x hx => ?_, ?_⟩
      · rcases List.mem_append.1 hx with hx | hx
        · exact htext.known x hx
        · exact hknown x hx
      · rw [he, hpos, Position.after_after]
    cases hfits with
    | @blank text blanks => exact hpass (u := s.skip text) text rfl (passes_blank blanks) hrun
    | lineEnd => exact absurd (List.mem_append_left _ (List.mem_singleton.2 rfl)) hl
    | @comment text line ends =>
      -- the comment goes on to the end of the line, so nothing is left to complain about
      cases rest with
      | nil =>
        rw [pieces] at hrun
        cases hrun
      | cons d ds => exact absurd (ends d rfl ▸ List.mem_cons_self) hrest
    | @lexeme l written =>
      exact hpass (u := s.take l) l.text.toList rfl (passes_lexeme written) hrun
    | @«foreign» d isForeign =>
      cases hrun
      exact ⟨[], d, rest, rfl, ⟨isForeign, by simp⟩, fun x hx => absurd hx List.not_mem_nil, rfl⟩

/-- **A line that can be read has no foreign character outside of comments.** -/
theorem not_foreign_of_ok (l : List Char) (hl : '\n' ∉ l) (hrun : s.readPieces (pieces l) = .ok t)
    {front back : List Char} {c : Char} (hsplit : l = front ++ c :: back) :
    ¬ForeignBehind front c := by
  intro hc
  induction l using pieces_induction generalizing s front with
  | nil => exact absurd hsplit (by simp)
  | piece p rest hfits hpieces ih =>
    rw [hpieces, readPieces_cons] at hrun
    have hrest : '\n' ∉ rest := fun hmem => hl (List.mem_append_right _ hmem)
    have hpass {u : Scan} (text : List Char) (htext : Passes rest text)
        (hrun : u.readPieces (pieces rest) = .ok t) (hsplit : text ++ rest = front ++ c :: back) :
        False := by
      obtain ⟨front', hrest', hc'⟩ := htext.exists_of_foreignBehind hc hsplit
      exact ih hrest hrun hrest' hc'
    cases hfits with
    | @blank text blanks => exact hpass (u := s.skip text) text (passes_blank blanks) hrun hsplit
    | lineEnd => exact absurd (List.mem_append_left _ (List.mem_singleton.2 rfl)) hl
    | @comment text line ends => exact not_foreignBehind_comment hsplit hc
    | @lexeme l written =>
      exact hpass (u := s.take l) l.text.toList (passes_lexeme written) hrun hsplit
    | «foreign» isForeign => cases hrun

end Scan

/-! ## Lines -/

section

variable {source line : String}

theorem scan_of_hasForeign (hline : '\n' ∉ line.toList) (h : HasForeign line) :
    ∃ front c back, line.toList = front ++ c :: back ∧ ForeignBehind front c ∧
      (∀ d ∈ front, Piece.isForeign d = false) ∧
        (Token.scan line).result = .error ⟨.foreignCharacter c, Position.start.after front⟩ := by
  obtain ⟨front, c, back, hsplit, hc⟩ := h
  cases hscan : (Token.scan line).result with
  | ok tokens =>
    obtain ⟨s, hrun, -⟩ := exists_readPieces_of_scan hscan
    exact absurd hc (Scan.not_foreign_of_ok _ hline hrun hsplit)
  | error e =>
    obtain ⟨front, c, back, hsplit, hc, hknown, rfl⟩ :=
      Scan.exists_foreign_of_error _ hline (Scan.readPieces_of_scan_error hscan)
    exact ⟨front, c, back, hsplit, hc, hknown, rfl⟩

/-- A line can be read alone if and only if it has no foreign character outside of comments. -/
theorem readAlone_iff (hline : '\n' ∉ line.toList) : ReadAlone line ↔ ¬HasForeign line := by
  constructor
  · rintro ⟨tokens, htokens⟩ h
    obtain ⟨front, c, back, -, -, -, hscan⟩ := scan_of_hasForeign hline h
    rw [Traced.result_mapError_eq_ok.1 htokens] at hscan
    cases hscan
  · intro h
    cases hscan : (Token.scan line).result with
    | ok tokens => exact ⟨tokens, Traced.result_mapError_eq_ok.2 hscan⟩
    | error e =>
      obtain ⟨front, c, back, hsplit, hc, -⟩ :=
        Scan.exists_foreign_of_error _ hline (Scan.readPieces_of_scan_error hscan)
      exact absurd ⟨front, c, back, hsplit, hc⟩ h

/-! ## The first foreign character -/

/-- **The first foreign character of a text that stands outside of comments** is `c`, behind `front`
on the line below the lines `above`. -/
structure FirstForeign (source : String) (above : List String) (front : List Char) (c : Char) :
    Prop where
  line : ∃ back below, linesOf source = above ++ String.ofList (front ++ c :: back) :: below
  foreignBehind : ForeignBehind front c
  aboveKnown : ∀ l ∈ above, ¬HasForeign l
  frontKnown : ∀ d ∈ front, Piece.isForeign d = false

/-- **The scanner complains about the first foreign character**, with its line and its column. -/
theorem exists_firstForeign (h : ∃ line ∈ linesOf source, HasForeign line) :
    ∃ above front c, FirstForeign source above front c ∧
      (Token.scan source).result =
        .error ⟨.foreignCharacter c, ⟨above.length + 1, 1 + Position.byteCount front⟩⟩ := by
  classical
  obtain ⟨line, hfind⟩ : ∃ line,
      (linesOf source).find? (fun l => decide (HasForeign l)) = some line := by
    obtain ⟨line, hmem, hline⟩ := h
    exact Option.isSome_iff_exists.1 (List.find?_isSome.2 ⟨line, hmem, decide_eq_true hline⟩)
  obtain ⟨hline, above, below, hlines, habove⟩ := List.find?_eq_some_iff_append.1 hfind
  have hnone : ∀ l ∈ above, ¬HasForeign l := fun l hl => by simpa using habove l hl
  have hnotMem : ∀ l ∈ above ++ line :: below, '\n' ∉ l.toList := fun l hl =>
    lineEnd_notMem_line (hlines ▸ hl)
  obtain ⟨front, c, back, hsplit, hc, hknown, hscan⟩ := scan_of_hasForeign
    (hnotMem line (List.mem_append_right _ List.mem_cons_self)) (of_decide_eq_true hline)
  refine ⟨above, front, c, ⟨⟨back, below, ?_⟩, hc, hnone, hknown⟩,
    scan_of_first_error hlines (fun l hl => ?_) hscan⟩
  · rw [← hsplit, String.ofList_toList, hlines]
  · exact (readAlone_iff (hnotMem l (List.mem_append_left _ hl))).2 (hnone l hl)

end

/-- **Only foreign characters are refused.**  A text has no tokens if and only if one of its lines
has a foreign character outside of comments.  The complaint is then about the first one, at its line
and behind the bytes in front of it on that line, and quotes it.  Reading the bytes of the text
comes to the same, and never takes a slice that begins or ends within a character. -/
theorem tokensOf_refuses_foreign (source : String) :
    ((∃ refusal, (tokensOf source).result = .error refusal) ↔
      ∃ line ∈ linesOf source, HasForeign line) ∧
    (∀ refusal, (tokensOf source).result = .error refusal →
      ∃ above front c, FirstForeign source above front c ∧
        refusal = .rejected (.about source .lexical
          ⟨above.length + 1, 1 + Position.byteCount front⟩
          ("invalid character " ++ Text.quotedChar c))) ∧
    Bytes.scan source = some (Token.scan source).result := by
  have hforeign {refusal : Refusal} (h : (tokensOf source).result = .error refusal) :
      ∃ line ∈ linesOf source, HasForeign line := by
    by_contra hnone
    have hread : ∀ line ∈ linesOf source, ReadAlone line := fun line hmem =>
      (readAlone_iff (lineEnd_notMem_line hmem)).2 fun hline => hnone ⟨line, hmem, hline⟩
    obtain ⟨e, hscan, -⟩ := Traced.result_mapError_eq_error.1 h
    rw [scan_of_lines hread] at hscan
    cases hscan
  refine ⟨⟨fun ⟨refusal, h⟩ => hforeign h, fun h => ?_⟩, fun refusal h => ?_, Bytes.scan_eq source⟩
  · obtain ⟨above, front, c, -, hscan⟩ := exists_firstForeign h
    exact ⟨_, Traced.result_mapError_eq_error.2 ⟨_, hscan, rfl⟩⟩
  · obtain ⟨above, front, c, hfirst, hscan⟩ := exists_firstForeign (hforeign h)
    obtain ⟨e, he, rfl⟩ := Traced.result_mapError_eq_error.1 h
    rw [hscan] at he
    cases he
    exact ⟨above, front, c, hfirst, rfl⟩

/-- A text with letters outside of ASCII in a comment, and the same text with a second line that has
two of them outside of comments. -/
theorem tokensOf_refuses_foreign_comment :
    (¬∃ line ∈ linesOf "x // é\n", HasForeign line) ∧
      ∃ above front c, FirstForeign "x // é\n1 ü ö\n" above front c ∧
        Refusal.rejected ⟨.lexical, ⟨2, 3⟩, "1 ü ö", "invalid character 'ü'"⟩ =
          .rejected (.about "x // é\n1 ü ö\n" .lexical
            ⟨above.length + 1, 1 + Position.byteCount front⟩
            ("invalid character " ++ Text.quotedChar c)) := by
  constructor
  · intro h
    have hread : (tokensOf "x // é\n").result.isOk = true := by decide +kernel
    obtain ⟨refusal, hrefused⟩ := (tokensOf_refuses_foreign "x // é\n").1.2 h
    rw [hrefused] at hread
    cases hread
  · have hrefused : (tokensOf "x // é\n1 ü ö\n").result =
        .error (.rejected ⟨.lexical, ⟨2, 3⟩, "1 ü ö", "invalid character 'ü'"⟩) := by
      decide +kernel
    exact (tokensOf_refuses_foreign "x // é\n1 ü ö\n").2.1 _ hrefused

end MicroGo
