import MicroGo.Proofs.Token.Lines

/-!
# A text on one line

The tokens of a text can be written out on one line, with a blank between each two of them
(`oneLine`).  Read again, this line has the same lexemes (`exists_scan_oneLine`).

There are two things to see.  A lexeme that was cut from a text is as long as it can be there; with
a blank behind it, it is cut off again, and nothing else is (`Lexeme.Spelled`).  And the line end
behind the whole does not add another semicolon, because the semicolons of the text have been
written out with its other tokens: the last token of a text with a line end behind it never ends a
statement (`EndsHere.endLine`).
-/

namespace MicroGo

/-- The texts of tokens on one line, with a blank between each two of them.  The end of the input is
left out. -/
def oneLine (tokens : List Token) : String :=
  " ".intercalate ((tokens.filter fun t => t.kind ≠ .eof).map fun t => t.text)

/-! ## Lexemes with a blank behind them -/

/-- **The lexeme is cut off from its own text**, if a blank or nothing stands behind it. -/
def Lexeme.Spelled (l : Lexeme) : Prop :=
  ∃ c cs, l.text.toList = c :: cs ∧ Piece.isBlank c = false ∧
    ∀ rest, (∀ d ∈ rest.head?, d = ' ') → Piece.split c (cs ++ rest) = (.lexeme l, rest)

theorem Lexeme.text_ofWord (text : String) : (ofWord text).text = text := by
  unfold ofWord
  split
  · rfl
  · rfl

namespace Piece

variable {c : Char} {cs rest : List Char} {l : Lexeme}

/-- A run takes all characters of its class that stand at the front. -/
theorem run_exact {p : Char → Bool} (hcs : ∀ d ∈ cs, p d)
    (hrest : ∀ d ∈ rest.head?, p d = false) : run p c (cs ++ rest) = (c :: cs, rest) := by
  rw [run, List.takeWhile_append_of_pos hcs, List.dropWhile_append_of_pos hcs]
  cases rest with
  | nil => simp
  | cons d rest => simp [hrest d rfl]

/-- A blank in front of something else is a piece. -/
theorem split_blank (hrest : ∀ d ∈ rest.head?, isBlank d = false) :
    split ' ' rest = (.blank [' '], rest) := by
  have hrun : run isBlank ' ' ([] ++ rest) = ([' '], rest) := run_exact nofun hrest
  rw [List.nil_append] at hrun
  rw [split, if_pos (by decide), hrun]

/-- What was cut off from a text as a lexeme is cut off from its own text. -/
theorem spelled_split (h : (split c cs).1 = .lexeme l) : l.Spelled := by
  unfold split at h
  split at h
  · cases h
  next hblank =>
  split at h
  · cases h
  next hline =>
  split at h
  · cases h
  have hblank' : isBlank c = false := Bool.not_eq_true _ ▸ hblank
  split at h
  next hdigit =>
    cases h
    refine ⟨c, cs.takeWhile Char.isDigit, String.toList_ofList, hblank', fun rest hrest => ?_⟩
    have hslash : c ≠ '/' := by
      rintro rfl
      exact absurd hdigit (by decide)
    have hrun : run Char.isDigit c (cs.takeWhile Char.isDigit ++ rest) = _ :=
      run_exact (fun _ => List.mem_takeWhile_imp) fun d hd => hrest d hd ▸ rfl
    rw [split, if_neg hblank, if_neg hline, if_neg (by simp [hslash]), if_pos hdigit, hrun]
    rfl
  next hdigit =>
  split at h
  next hstart =>
    cases h
    refine ⟨c, cs.takeWhile isWordPart, ?_, hblank', fun rest hrest => ?_⟩
    · rw [Lexeme.text_ofWord]
      exact String.toList_ofList
    have hslash : c ≠ '/' := by
      rintro rfl
      exact absurd hstart (by decide)
    have hrun : run isWordPart c (cs.takeWhile isWordPart ++ rest) = _ :=
      run_exact (fun _ => List.mem_takeWhile_imp) fun d hd => hrest d hd ▸ rfl
    rw [split, if_neg hblank, if_neg hline, if_neg (by simp [hslash]), if_neg hdigit,
      if_pos hstart, hrun]
  next hstart =>
  split at h
  next hequals =>
    cases h
    refine ⟨c, ['='], String.toList_ofList, hblank', fun rest hrest => ?_⟩
    have hbegins := (Bool.and_eq_true_iff.1 hequals).1
    rw [split, if_neg hblank, if_neg hline, if_neg (by simp), if_neg hdigit, if_neg hstart,
      if_pos (by simp [hbegins])]
    rfl
  split at h
  next hsign =>
    cases h
    refine ⟨c, [], String.toList_ofList, hblank', fun rest hrest => ?_⟩
    have hhead (d : Char) (hd : d ≠ ' ') : rest.head? ≠ some d := fun h => hd (hrest d h)
    rw [List.nil_append, split, if_neg hblank, if_neg hline,
      if_neg (by simp [hhead '/' (by decide)]), if_neg hdigit, if_neg hstart,
      if_neg (by simp [hhead '=' (by decide)]), if_pos hsign]
    rfl
  · cases h

end Piece

theorem spelled_semicolon : (Lexeme.reserved ";").Spelled := by
  have hsplit : (Piece.split ';' []).1 = .lexeme (.reserved ";") := rfl
  exact Piece.spelled_split hsplit

/-! ## The pieces of a line -/

/-- The characters of lexemes with a blank between each two of them. -/
def spaced (ls : List Lexeme) : List Char :=
  [' '].intercalate (ls.map fun l => l.text.toList)

/-- The pieces of lexemes with a blank between each two of them. -/
def spacedPieces (ls : List Lexeme) : List Piece :=
  (ls.map Piece.lexeme).intersperse (.blank [' '])

theorem toList_oneLine {tokens : List Token} (h : ∀ t ∈ tokens, t.kind ≠ .eof) (pos : Position) :
    (oneLine (tokens ++ [.endOfInput pos])).toList = spaced (tokens.map Token.toLexeme) := by
  have hfilter : (tokens ++ [Token.endOfInput pos]).filter (fun t => t.kind ≠ .eof) = tokens := by
    rw [List.filter_append, List.filter_eq_self.2 fun t ht => decide_eq_true (h t ht)]
    exact List.append_nil _
  rw [oneLine, hfilter, String.toList_intercalate, spaced, List.map_map, List.map_map]
  rfl

section

variable {l l' : Lexeme} {ls : List Lexeme}

theorem spaced_singleton : spaced [l] = l.text.toList :=
  List.intercalate_singleton

theorem spaced_cons_cons : spaced (l :: l' :: ls) = l.text.toList ++ ' ' :: spaced (l' :: ls) := by
  show List.intercalate _ (_ :: _ :: _) = _
  rw [List.intercalate_cons_cons, List.append_assoc]
  rfl

/-- No blank stands at the front of a line. -/
theorem head?_spaced (h : l.Spelled) (ls : List Lexeme) :
    ∀ d ∈ (spaced (l :: ls)).head?, Piece.isBlank d = false := by
  obtain ⟨c, cs, htext, hblank, -⟩ := h
  intro d hd
  cases ls with
  | nil =>
    rw [spaced_singleton, htext] at hd
    exact Option.some.inj hd ▸ hblank
  | cons l' ls =>
    rw [spaced_cons_cons, htext] at hd
    exact Option.some.inj hd ▸ hblank

/-- **The lexemes of a line are cut off one by one.** -/
theorem pieces_spaced (h : ∀ l ∈ ls, l.Spelled) : pieces (spaced ls) = spacedPieces ls := by
  induction ls with
  | nil =>
    show pieces [] = []
    rw [pieces]
  | cons l ls ih =>
    obtain ⟨c, cs, htext, -, hsplit⟩ := h l List.mem_cons_self
    cases ls with
    | nil =>
      have hlast : Piece.split c cs = (.lexeme l, []) := by
        rw [← hsplit [] fun d hd => absurd hd (Option.not_mem_none d), List.append_nil]
      rw [spaced_singleton, htext, pieces, hlast, pieces]
      rfl
    | cons l' ls =>
      have hfirst := hsplit (' ' :: spaced (l' :: ls)) fun d hd => (Option.some.inj hd).symm
      have hblank := Piece.split_blank (head?_spaced (h l' (by simp)) ls)
      rw [spaced_cons_cons, htext, List.cons_append, pieces, hfirst, pieces, hblank,
        ih fun l hl => h l (List.mem_cons_of_mem _ hl)]
      rfl

theorem count_lineEnd_spacedPieces (ls : List Lexeme) : (spacedPieces ls).count .lineEnd = 0 := by
  induction ls with
  | nil => rfl
  | cons l ls ih =>
    cases ls with
    | nil => rfl
    | cons l' ls =>
      show List.count _ (Piece.lexeme l :: Piece.blank [' '] :: spacedPieces (l' :: ls)) = 0
      rw [List.count_cons_of_ne (by simp), List.count_cons_of_ne (by simp), ih]

end

/-- A line has no line end in it. -/
theorem lineEnd_notMem_spaced {ls : List Lexeme} (h : ∀ l ∈ ls, l.Spelled) : '\n' ∉ spaced ls := by
  rw [← List.count_eq_zero, ← count_lineEnd_pieces, pieces_spaced h, count_lineEnd_spacedPieces]

/-! ## Reading a line -/

namespace Scan

variable {s t : Scan}

/-- On a line every lexeme becomes a token. -/
theorem exists_readPieces_spaced (ls : List Lexeme) (s : Scan) :
    ∃ t, s.readPieces (spacedPieces ls) = .ok t ∧
      t.tokens.toList.map Token.toLexeme = s.tokens.toList.map Token.toLexeme ++ ls := by
  have htake (s : Scan) (l : Lexeme) : (s.take l).tokens.toList.map Token.toLexeme =
      s.tokens.toList.map Token.toLexeme ++ [l] := by
    rw [take, Array.toList_push, List.map_append]
    rfl
  induction ls generalizing s with
  | nil => exact ⟨s, rfl, (List.append_nil _).symm⟩
  | cons l ls ih =>
    cases ls with
    | nil => exact ⟨s.take l, rfl, htake s l⟩
    | cons l' ls =>
      obtain ⟨t, ht, htokens⟩ := ih ((s.take l).skip [' '])
      refine ⟨t, ht, ?_⟩
      rw [htokens]
      show (s.take l).tokens.toList.map Token.toLexeme ++ _ = _
      rw [htake, List.append_assoc]
      rfl

/-- If the last token ends a statement, then on this line. -/
def EndsHere (s : Scan) : Prop :=
  ∀ x ∈ s.tokens.toList.getLast?, x.endsStatement = true → x.pos.line = s.pos.line

/-- The last token in front of a line end does not end a statement, or a semicolon follows it. -/
theorem EndsHere.endLine (h : s.EndsHere) :
    ∀ x ∈ s.endLine.tokens.toList.getLast?, x.endsStatement = false := by
  intro x hx
  rw [tokens_endLine] at hx
  cases hlast : s.unfinished? with
  | some last =>
    rw [hlast] at hx
    obtain rfl : (⟨.reserved ";", s.pos⟩ : Token) = x := by
      simpa using hx
    rfl
  | none =>
    rw [hlast, Option.toList_none, List.map_nil, List.append_nil] at hx
    by_contra hends
    have hends' : x.endsStatement = true := Bool.not_eq_false _ ▸ hends
    have hline := h x hx hends'
    rw [unfinished?, ← Array.getLast?_toList, hx] at hlast
    simp [Option.filter, hline, hends'] at hlast

theorem EndsHere.readPieces {ps : List Piece} (h : s.EndsHere) (hrun : s.readPieces ps = .ok t) :
    t.EndsHere := by
  induction ps generalizing s with
  | nil =>
    cases hrun
    exact h
  | cons p ps ih =>
    rw [readPieces_cons] at hrun
    cases p with
    | blank text => exact ih (s := s.skip text) h hrun
    | comment text => exact ih (s := s.skip text) h hrun
    | lineEnd =>
      refine ih (fun x hx hends => ?_) hrun
      rw [h.endLine x hx] at hends
      cases hends
    | lexeme l =>
      refine ih (s := s.take l) (fun x hx _ => ?_) hrun
      rw [take, Array.toList_push, List.getLast?_concat] at hx
      obtain rfl := Option.some.inj hx
      rfl
    | «foreign» c => cases hrun

theorem unfinished?_eq_none (h : ∀ x ∈ s.tokens.toList.getLast?, x.endsStatement = false) :
    s.unfinished? = none := by
  rw [unfinished?, ← Array.getLast?_toList]
  cases hlast : s.tokens.toList.getLast? with
  | none => rfl
  | some x => simp [Option.filter, h x hlast]

end Scan

/-- The tokens of a text with a line end are cut off from their own texts, and the last one does not
end a statement. -/
theorem spelled_of_readPieces {source : String} {s : Scan} (hend : endsInLineEnd source)
    (hrun : ({} : Scan).readPieces (pieces source.toList) = .ok s) :
    (∀ t ∈ s.tokens.toList, t.toLexeme.Spelled) ∧
      ∀ x ∈ s.tokens.toList.getLast?, x.endsStatement = false := by
  constructor
  · have hempty : Scan.All Lexeme.Spelled {} := nofun
    refine hempty.readPieces spelled_semicolon (fun l hl => ?_) hrun
    obtain ⟨c, rest, hsplit⟩ := exists_split_of_mem_pieces _ hl
    exact Piece.spelled_split hsplit
  · obtain ⟨xs, hxs⟩ := List.getLast?_eq_some_iff.1 (of_decide_eq_true hend)
    rw [hxs] at hrun
    obtain ⟨u, hu, rfl⟩ := Scan.exists_endLine hrun
    have hempty : Scan.EndsHere {} := nofun
    exact (hempty.readPieces hu).endLine

/-- A line of lexemes, the last of which does not end a statement, has just these lexemes. -/
theorem exists_scan_spaced {text : String} {ls : List Lexeme} (htext : text.toList = spaced ls)
    (hspelled : ∀ l ∈ ls, l.Spelled) (hlast : ∀ l ∈ ls.getLast?, l.endsStatement = false) :
    ∃ tokens, (Token.scan (withLineEnd text)).result = .ok tokens ∧
      tokens.map Token.toLexeme = ls ++ [⟨.eof, ""⟩] := by
  have hends : endsInLineEnd text = false := by
    refine decide_eq_false fun h => lineEnd_notMem_spaced hspelled ?_
    rw [← htext]
    exact List.mem_of_getLast? h
  have hpieces : pieces (withLineEnd text).toList = spacedPieces ls ++ [.lineEnd] := by
    rw [withLineEnd, if_neg (by simp [hends]), String.toList_append, htext]
    show pieces (spaced ls ++ '\n' :: []) = _
    rw [pieces_append, pieces_spaced hspelled, pieces]
  obtain ⟨t, hrun, htokens⟩ := Scan.exists_readPieces_spaced ls {}
  rw [Array.toList_empty, List.map_nil, List.nil_append] at htokens
  have hnone : t.unfinished? = none := by
    refine Scan.unfinished?_eq_none fun x hx => hlast x.toLexeme ?_
    rw [← htokens, List.getLast?_map, hx]
    rfl
  refine ⟨t.endLine.tokens.toList ++ [.endOfInput t.endLine.pos], ?_, ?_⟩
  · rw [result_scan, hpieces, Scan.readPieces_append, hrun]
    rfl
  · rw [Scan.tokens_endLine, hnone, Option.toList_none, List.map_nil, List.append_nil,
      List.map_append, htokens]
    rfl

/-- **The tokens of a text are those of one line.**  If a text with a line end has tokens, then
these tokens, written out on one line, are read again as the same lexemes. -/
theorem exists_scan_oneLine {source : String} {tokens : List Token} (hend : endsInLineEnd source)
    (h : (Token.scan source).result = .ok tokens) :
    ∃ tokens', (Token.scan (withLineEnd (oneLine tokens))).result = .ok tokens' ∧
      tokens'.map Token.toLexeme = tokens.map Token.toLexeme := by
  obtain ⟨front, pos, rfl, hwritten⟩ := exists_of_scan h
  obtain ⟨s, hrun, hs⟩ := exists_readPieces_of_scan h
  obtain ⟨rfl, -⟩ := List.append_inj' hs rfl
  obtain ⟨hspelled, hlast⟩ := spelled_of_readPieces hend hrun
  have hlast' : ∀ l ∈ (s.tokens.toList.map Token.toLexeme).getLast?, l.endsStatement = false := by
    intro l hl
    rw [List.getLast?_map] at hl
    obtain ⟨x, hx, rfl⟩ := Option.map_eq_some_iff.1 hl
    exact hlast x hx
  have htext := toList_oneLine (fun t ht => (hwritten t ht).kind_ne) pos
  obtain ⟨tokens', hscan, htokens'⟩ :=
    exists_scan_spaced htext (List.forall_mem_map.2 hspelled) hlast'
  refine ⟨tokens', hscan, ?_⟩
  rw [htokens', List.map_append]
  rfl

end MicroGo
