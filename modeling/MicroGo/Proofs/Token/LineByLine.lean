import MicroGo.Proofs.Token.Partition

/-!
# Reading line by line

Reading goes through a text in one sweep and carries the place and the tokens so far with it.  Still
no line has an influence on another one.  The tokens of a text are those of its lines, each line
read on its own and put at its number, with a semicolon behind each line that ends a statement and
has a line end (`stacked`).  A text that has a line which cannot be read on its own cannot be read
either, and the complaint is the one about the first such line.

What has to be seen is that the look back at the end of a line, to the last token, does not reach
the lines above: tokens above the line are told apart by the number of their line (`Scan.AtLine`).
-/

namespace MicroGo

/-! ## Lines -/

/-- The lines of a text, without their line ends. -/
def linesOf (source : String) : List String :=
  (source.toList.splitOn '\n').map String.ofList

/-- A text is its last line, or a line with a line end and a text behind it. -/
@[elab_as_elim]
theorem lines_induction {motive : List Char → Prop} (last : ∀ l, '\n' ∉ l → motive l)
    (line : ∀ l below, '\n' ∉ l → motive below → motive (l ++ '\n' :: below)) (cs : List Char) :
    motive cs := by
  induction hn : cs.length using Nat.strong_induction_on generalizing cs with
  | _ n ih =>
    by_cases h : '\n' ∈ cs
    · obtain ⟨l, below, rfl, hl⟩ := List.eq_append_cons_of_mem h
      have hlt : below.length < n := by
        rw [← hn, List.length_append, List.length_cons]
        omega
      exact line l below hl (ih _ hlt below rfl)
    · exact last cs h

section

variable {l below : List Char}

theorem linesOf_last (h : '\n' ∉ l) : linesOf (String.ofList l) = [String.ofList l] := by
  rw [linesOf, String.toList_ofList, List.splitOn_eq_singleton h, List.map_singleton]

theorem linesOf_line (h : '\n' ∉ l) :
    linesOf (String.ofList (l ++ '\n' :: below)) =
      String.ofList l :: linesOf (String.ofList below) := by
  rw [linesOf, linesOf, String.toList_ofList, String.toList_ofList,
    List.splitOn_append_cons_self_of_not_mem h, List.map_cons]

theorem lineEnd_notMem_line {source line : String} (h : line ∈ linesOf source) :
    '\n' ∉ line.toList := by
  obtain ⟨cs, rfl⟩ : ∃ cs, String.ofList cs = source := ⟨source.toList, String.ofList_toList⟩
  induction cs using lines_induction with
  | last l hl =>
    rw [linesOf_last hl, List.mem_singleton] at h
    rwa [h, String.toList_ofList]
  | line l below hl ih =>
    rw [linesOf_line hl, List.mem_cons] at h
    rcases h with rfl | h
    · rwa [String.toList_ofList]
    · exact ih h

/-! ### The text of a line -/

theorem afterLineEnds_line (h : '\n' ∉ l) (n : Nat) :
    afterLineEnds (n + 1) (l ++ '\n' :: below) = afterLineEnds n below := by
  induction l with
  | nil => rw [List.nil_append, afterLineEnds, if_pos rfl]
  | cons c cs ih =>
    obtain ⟨hc, hcs⟩ := not_or.1 (fun hmem => h (List.mem_cons.2 hmem))
    rw [List.cons_append, afterLineEnds, if_neg (Ne.symm hc), ih hcs]

theorem lineText_below (h : '\n' ∉ l) (n : Nat) :
    lineText (String.ofList (l ++ '\n' :: below)) (n + 2) =
      lineText (String.ofList below) (n + 1) := by
  unfold lineText
  dsimp only
  rw [String.toList_ofList, String.toList_ofList, Nat.add_sub_cancel, Nat.add_succ_sub_one,
    afterLineEnds_line h]

theorem lineText_first (h : '\n' ∉ l) :
    lineText (String.ofList (l ++ '\n' :: below)) 1 = lineText (String.ofList l) 1 := by
  have hall : ∀ c ∈ l, decide (c ≠ '\n') = true := fun c hc =>
    decide_eq_true fun heq => h (heq ▸ hc)
  have hline : (l ++ '\n' :: below).takeWhile (· ≠ '\n') = l.takeWhile (· ≠ '\n') := by
    rw [List.takeWhile_append_of_pos hall, List.takeWhile_cons_of_neg (by simp), List.append_nil,
      List.takeWhile_eq_self_iff.2 hall]
  unfold lineText
  dsimp only
  rw [String.toList_ofList, String.toList_ofList, Nat.sub_self, afterLineEnds, afterLineEnds, hline]

end

/-- The line with a number, as it is shown beside a complaint, is shown like the line alone. -/
theorem lineText_linesOf {source : String} {above below : List String} {line : String}
    (h : linesOf source = above ++ line :: below) :
    lineText source (above.length + 1) = lineText line 1 := by
  obtain ⟨cs, rfl⟩ : ∃ cs, String.ofList cs = source := ⟨source.toList, String.ofList_toList⟩
  induction cs using lines_induction generalizing above with
  | last l hl =>
    rw [linesOf_last hl] at h
    obtain ⟨rfl, hline⟩ := List.append_eq_singleton_iff.1 h.symm |>.resolve_right (by simp)
    rw [(List.cons.inj hline).1]
    rfl
  | line l cs hl ih =>
    rw [linesOf_line hl] at h
    cases above with
    | nil =>
      rw [← (List.cons.inj h).1]
      exact lineText_first hl
    | cons first above =>
      rw [List.length_cons, lineText_below hl]
      exact ih (List.cons.inj h).2

/-! ## The lines of a text, one below the other -/

/-- The token on another line. -/
def Token.onLine (n : Nat) (t : Token) : Token :=
  { t with pos := ⟨n, t.pos.column⟩ }

/-- The place behind a line with a number. -/
def Position.lineEnd (n : Nat) (line : String) : Position :=
  ⟨n, 1 + byteCount line.toList⟩

/-- The tokens of a line that is read alone, without the end of the input. -/
def tokensAlone (line : String) : List Token :=
  ((tokensOf line).result.toOption.getD []).dropLast

/-- The semicolon at the end of a line: there is one if the line has tokens, and the last of them is
a numeral, a name, a closing bracket or `return`. -/
def semicolonBehind (tokens : List Token) (pos : Position) : List Token :=
  if tokens.getLast?.any fun t => t.endsStatement then [⟨.reserved ";", pos⟩] else []

/-- **The tokens of lines one below the other**, the first of which has the number `n`.  All lines
but the last one have a line end. -/
def stacked (n : Nat) : List String → List Token
  | [] => []
  | [last] => (tokensAlone last).map (Token.onLine n) ++ [.endOfInput (.lineEnd n last)]
  | line :: next :: below =>
      (tokensAlone line).map (Token.onLine n) ++
        semicolonBehind (tokensAlone line) (.lineEnd n line) ++ stacked (n + 1) (next :: below)

theorem stacked_line (n : Nat) (line : String) {below : List String} (h : below ≠ []) :
    stacked n (line :: below) =
      (tokensAlone line).map (Token.onLine n) ++
        semicolonBehind (tokensAlone line) (.lineEnd n line) ++ stacked (n + 1) below := by
  cases below with
  | nil => exact absurd rfl h
  | cons next below => rfl

theorem linesOf_ne_nil (source : String) : linesOf source ≠ [] :=
  fun h => List.splitOn_ne_nil _ _ (List.map_eq_nil_iff.1 h)

/-! ## A line alone -/

/-- A line that can be read alone. -/
def ReadAlone (line : String) : Prop :=
  ∃ tokens, (tokensOf line).result = .ok tokens

namespace Scan

variable {s t u : Scan} {l : List Char} {k : Nat} {e : Failure}

theorem exists_of_readAlone (h : ReadAlone (String.ofList l)) :
    ∃ s, ({} : Scan).readPieces (pieces l) = .ok s ∧
      tokensAlone (String.ofList l) = s.tokens.toList := by
  obtain ⟨tokens, htokens⟩ := h
  obtain ⟨s, hrun, rfl⟩ := exists_readPieces_of_scan (Traced.result_mapError_eq_ok.1 htokens)
  rw [String.toList_ofList] at hrun
  refine ⟨s, hrun, ?_⟩
  rw [tokensAlone, htokens]
  exact List.dropLast_concat

/-- All tokens of a line alone are on the first line, and reading stops behind it. -/
theorem places_of_line (hl : '\n' ∉ l) (hrun : ({} : Scan).readPieces (pieces l) = .ok s) :
    s.pos = .lineEnd 1 (String.ofList l) ∧ ∀ x ∈ s.tokens.toList, x.pos.line = 1 := by
  have hstart : ({} : Scan).pos = .behind [] := rfl
  obtain ⟨ts, hts, hcut⟩ := cut_of_readPieces l hstart hrun
  rw [Array.toList_empty, List.nil_append] at hts
  constructor
  · obtain ⟨ts', hclosed, -⟩ := hcut.exists_closed
    have hlast := (List.append_inj' hclosed rfl).2
    have hpos : s.pos = .behind ([] ++ l) := congrArg Token.pos (List.cons.inj hlast).1
    rw [hpos, Position.behind_append [] hl, Position.lineEnd, String.toList_ofList]
    rfl
  · intro x hx
    rw [hts] at hx
    obtain ⟨a, b, rfl, hpos⟩ := hcut.exists_behind x (List.mem_append_left _ hx)
    have ha : '\n' ∉ a := fun hmem => hl (List.mem_append_left b hmem)
    rw [hpos, Position.behind_append [] ha]
    rfl

/-- At the end of a line alone, all tokens are looked at. -/
theorem semicolon_of_line (hline : ∀ x ∈ s.tokens.toList, x.pos.line = s.pos.line)
    (pos : Position) :
    (s.unfinished?.toList.map fun _ => (⟨.reserved ";", pos⟩ : Token)) =
      semicolonBehind s.tokens.toList pos := by
  unfold unfinished? semicolonBehind
  rw [← Array.getLast?_toList]
  cases hlast : s.tokens.toList.getLast? with
  | none => rfl
  | some x =>
    have hx := hline x (List.mem_of_getLast? hlast)
    cases hends : x.endsStatement with
    | false => simp [Option.filter, hends]
    | true => simp [Option.filter, hends, hx]

/-! ## A line below others -/

/-- Reading is at the start of a line, and `k` lines are above it. -/
structure AtLine (k : Nat) (t : Scan) : Prop where
  pos : t.pos = ⟨k + 1, 1⟩
  above : ∀ x ∈ t.tokens.toList, x.pos.line ≤ k

theorem AtLine.below (h : t.AtLine k) : Below t.tokens.toList k {} t := by
  refine ⟨?_, (List.append_nil _).symm, le_refl 1⟩
  rw [h.pos, Position.below, Nat.add_comm]
  rfl

/-- What is read of a line below others: its own tokens, at the number of the line. -/
structure LineRead (k : Nat) (line : String) (t u : Scan) : Prop where
  pos : u.pos = .lineEnd (k + 1) line
  tokens : u.tokens.toList = t.tokens.toList ++ (tokensAlone line).map (Token.onLine (k + 1))
  endLine : u.endLine.tokens.toList = u.tokens.toList ++ semicolonBehind (tokensAlone line) u.pos
  atLine : u.endLine.AtLine (k + 1)

theorem exists_lineRead (ht : t.AtLine k) (hl : '\n' ∉ l) (h : ReadAlone (String.ofList l)) :
    ∃ u, t.readPieces (pieces l) = .ok u ∧ LineRead k (String.ofList l) t u := by
  obtain ⟨s, hrun, halone⟩ := exists_of_readAlone h
  obtain ⟨hpos, hline⟩ := places_of_line hl hrun
  obtain ⟨u, hu, hbelow⟩ := ht.below.readPieces ht.above hrun
  have hupos : u.pos = .lineEnd (k + 1) (String.ofList l) := by
    rw [hbelow.pos, hpos, Position.below, Position.lineEnd, Position.lineEnd, Nat.add_comm]
  have hmoved : s.tokens.toList.map (Token.below k) =
      s.tokens.toList.map (Token.onLine (k + 1)) := by
    refine List.map_congr_left fun x hx => ?_
    rw [Token.below, Token.onLine, Position.below, hline x hx, Nat.add_comm]
  have hutokens : u.tokens.toList =
      t.tokens.toList ++ (tokensAlone (String.ofList l)).map (Token.onLine (k + 1)) := by
    rw [hbelow.tokens, hmoved, halone]
  -- the look back does not reach the tokens above, which are on lines up to `k`
  have hends : u.endLine.tokens.toList =
      u.tokens.toList ++ semicolonBehind (tokensAlone (String.ofList l)) u.pos := by
    rw [tokens_endLine, hbelow.unfinished?_eq ht.above, halone,
      ← semicolon_of_line (fun x hx => (hline x hx).trans (by rw [hpos]; rfl))]
    cases s.unfinished? with
    | none => rfl
    | some last => rfl
  refine ⟨u, hu, hupos, hutokens, hends, ?_, fun x hx => ?_⟩
  · rw [pos_endLine, hupos]
    rfl
  · have habove : t.Above := fun y hy => by
      rw [ht.pos]
      exact Nat.le_succ_of_le (ht.above y hy)
    have hle := (habove.readPieces hu).1.endLine x hx
    rw [hupos] at hle
    exact hle

/-! ## A line that cannot be read -/

/-- Below another text there is the same complaint, as many lines further down. -/
theorem Below.readPieces_error {front : List Token} {ps : List Piece} (h : Below front k s t)
    (hfront : ∀ x ∈ front, x.pos.line ≤ k) (hrun : s.readPieces ps = .error e) :
    t.readPieces ps = .error ⟨e.complaint, e.pos.below k⟩ := by
  have hskip {s t : Scan} (h : Below front k s t) (text : List Char) :
      Below front k (s.skip text) (t.skip text) := by
    refine ⟨?_, h.tokens, h.line⟩
    show t.pos.after _ = (s.pos.after _).below k
    rw [h.pos]
    rfl
  induction ps generalizing s t with
  | nil => cases hrun
  | cons p ps ih =>
    rw [readPieces_cons] at hrun ⊢
    cases p with
    | blank text => exact ih (hskip h text) hrun
    | comment text => exact ih (hskip h text) hrun
    | lineEnd => exact ih (h.endLine hfront) hrun
    | lexeme l => exact ih (h.take l) hrun
    | «foreign» c =>
      cases hrun
      show Except.error _ = _
      rw [h.pos]

/-- A complaint about a line is made on that line. -/
theorem line_of_error {ps : List Piece} (hps : .lineEnd ∉ ps) (hrun : s.readPieces ps = .error e) :
    e.pos.line = s.pos.line := by
  induction ps generalizing s with
  | nil => cases hrun
  | cons p ps ih =>
    obtain ⟨hp, hlater⟩ := not_or.1 fun hmem => hps (List.mem_cons.2 hmem)
    rw [readPieces_cons] at hrun
    cases p with
    | blank text => exact ih (s := s.skip text) hlater hrun
    | comment text => exact ih (s := s.skip text) hlater hrun
    | lineEnd => exact absurd rfl hp
    | lexeme l => exact ih (s := s.take l) hlater hrun
    | «foreign» c =>
      cases hrun
      rfl

theorem readPieces_of_scan_error {line : String} (h : (Token.scan line).result = .error e) :
    ({} : Scan).readPieces (pieces line.toList) = .error e := by
  rw [result_scan] at h
  cases hrun : ({} : Scan).readPieces (pieces line.toList) with
  | error e' =>
    rw [hrun] at h
    cases h
    rfl
  | ok s =>
    rw [hrun] at h
    cases h

theorem line_of_scan_error {line : String} (hline : '\n' ∉ line.toList)
    (h : (Token.scan line).result = .error e) : e.pos.line = 1 := by
  have hends : .lineEnd ∉ pieces line.toList := by
    rw [← List.count_eq_zero, count_lineEnd_pieces]
    exact List.count_eq_zero.2 hline
  exact line_of_error hends (readPieces_of_scan_error h)

theorem readPieces_line_error (ht : t.AtLine k) (hl : '\n' ∉ l)
    (he : (Token.scan (String.ofList l)).result = .error e) :
    t.readPieces (pieces l) = .error ⟨e.complaint, ⟨k + 1, e.pos.column⟩⟩ := by
  have hrun := readPieces_of_scan_error he
  rw [String.toList_ofList] at hrun
  have hline : e.pos.line = 1 := line_of_scan_error (by rwa [String.toList_ofList]) he
  rw [ht.below.readPieces_error ht.above hrun, Position.below, hline, Nat.add_comm]

/-! ## All lines -/

theorem readPieces_line_append (t : Scan) (l below : List Char) :
    t.readPieces (pieces (l ++ '\n' :: below)) =
      t.readPieces (pieces l) >>= fun u => u.endLine.readPieces (pieces below) := by
  rw [pieces_append, readPieces_append]
  rfl

/-- **Lines that can be read alone are read one after the other.** -/
theorem exists_readPieces_stacked (cs : List Char) (ht : t.AtLine k)
    (h : ∀ line ∈ linesOf (String.ofList cs), ReadAlone line) :
    ∃ u, t.readPieces (pieces cs) = .ok u ∧
      u.tokens.toList ++ [.endOfInput u.pos] =
        t.tokens.toList ++ stacked (k + 1) (linesOf (String.ofList cs)) := by
  induction cs using lines_induction generalizing t k with
  | last l hl =>
    rw [linesOf_last hl] at h ⊢
    obtain ⟨u, hu, hread⟩ := exists_lineRead ht hl (h _ List.mem_cons_self)
    refine ⟨u, hu, ?_⟩
    rw [hread.tokens, hread.pos, List.append_assoc]
    rfl
  | line l below hl ih =>
    rw [linesOf_line hl] at h ⊢
    obtain ⟨hfirst, hbelow⟩ := List.forall_mem_cons.1 h
    obtain ⟨u, hu, hread⟩ := exists_lineRead ht hl hfirst
    obtain ⟨v, hv, htokens⟩ := ih hread.atLine hbelow
    refine ⟨v, ?_, ?_⟩
    · rw [readPieces_line_append, hu]
      exact hv
    · rw [htokens, hread.endLine, hread.tokens, hread.pos, stacked_line _ _ (linesOf_ne_nil _)]
      simp only [List.append_assoc]

/-- **The first line that cannot be read alone stops the reading.** -/
theorem readPieces_first_error (cs : List Char) (ht : t.AtLine k) {above below : List String}
    {line : String} (hlines : linesOf (String.ofList cs) = above ++ line :: below)
    (habove : ∀ line ∈ above, ReadAlone line) (he : (Token.scan line).result = .error e) :
    t.readPieces (pieces cs) = .error ⟨e.complaint, ⟨k + above.length + 1, e.pos.column⟩⟩ := by
  induction cs using lines_induction generalizing t k above with
  | last l hl =>
    rw [linesOf_last hl] at hlines
    obtain ⟨rfl, hline⟩ := List.append_eq_singleton_iff.1 hlines.symm |>.resolve_right (by simp)
    rw [(List.cons.inj hline).1] at he
    exact readPieces_line_error ht hl he
  | line l rest hl ih =>
    rw [linesOf_line hl] at hlines
    rw [readPieces_line_append]
    cases above with
    | nil =>
      rw [← (List.cons.inj hlines).1] at he
      rw [readPieces_line_error ht hl he]
      rfl
    | cons first above =>
      obtain ⟨rfl, hrest⟩ := List.cons.inj hlines
      obtain ⟨hfirst, hother⟩ := List.forall_mem_cons.1 habove
      obtain ⟨u, hu, hread⟩ := exists_lineRead ht hl hfirst
      rw [hu, List.length_cons, Nat.add_comm above.length, ← Nat.add_assoc]
      exact ih hread.atLine hrest hother

theorem atLine_start : ({} : Scan).AtLine 0 :=
  ⟨rfl, fun _ hx => absurd hx List.not_mem_nil⟩

end Scan

theorem scan_of_lines {source : String} (h : ∀ line ∈ linesOf source, ReadAlone line) :
    (Token.scan source).result = .ok (stacked 1 (linesOf source)) := by
  have hlines : ∀ line ∈ linesOf (String.ofList source.toList), ReadAlone line := by
    rw [String.ofList_toList]
    exact h
  obtain ⟨u, hu, htokens⟩ := Scan.exists_readPieces_stacked _ Scan.atLine_start hlines
  rw [String.ofList_toList, Array.toList_empty, List.nil_append] at htokens
  rw [result_scan, hu, ← htokens]
  rfl

theorem scan_of_first_error {source line : String} {above below : List String} {e : Failure}
    (h : linesOf source = above ++ line :: below) (habove : ∀ line ∈ above, ReadAlone line)
    (he : (Token.scan line).result = .error e) :
    (Token.scan source).result = .error ⟨e.complaint, ⟨above.length + 1, e.pos.column⟩⟩ := by
  have hlines : linesOf (String.ofList source.toList) = above ++ line :: below := by
    rw [String.ofList_toList]
    exact h
  rw [result_scan, Scan.readPieces_first_error _ Scan.atLine_start hlines habove he, Nat.zero_add]
  rfl

/-- **Texts are read line by line.**  If every line of a text can be read alone, then the tokens of
the text are those of its lines, one line below the other.  Otherwise the complaint about the text
is the one about its first line that cannot be read alone, at the number of that line. -/
theorem tokensOf_line_by_line (source : String) :
    ((∀ line ∈ linesOf source, ReadAlone line) →
      (tokensOf source).result = .ok (stacked 1 (linesOf source))) ∧
    ∀ above line below refusal, linesOf source = above ++ line :: below →
      (∀ l ∈ above, ReadAlone l) → (tokensOf line).result = .error refusal →
        ∃ d, refusal = .rejected d ∧
          (tokensOf source).result =
            .error (.rejected { d with pos := ⟨above.length + 1, d.pos.column⟩ }) := by
  refine ⟨fun h => Traced.result_mapError_eq_ok.2 (scan_of_lines h), ?_⟩
  intro above line below refusal hlines habove hrefused
  obtain ⟨e, he, rfl⟩ := Traced.result_mapError_eq_error.1 hrefused
  have hmem : line ∈ linesOf source := by
    rw [hlines]
    exact List.mem_append_right _ List.mem_cons_self
  have hfirst : e.pos.line = 1 := Scan.line_of_scan_error (lineEnd_notMem_line hmem) he
  refine ⟨e.diagnostic line, rfl, Traced.result_mapError_eq_error.2
    ⟨_, scan_of_first_error hlines habove he, ?_⟩⟩
  unfold Failure.diagnostic Diagnostic.about
  rw [lineText_linesOf hlines, hfirst]

/-- A text with a comment, an empty line and a line that is not ended, and a text with a foreign
character on its second line. -/
theorem tokensOf_line_by_line_comment :
    (tokensOf "f(x) // é\n\n+ 1").result = .ok (stacked 1 ["f(x) // é", "", "+ 1"]) ∧
      (tokensOf "x\n1 ü\n").result =
        .error (.rejected ⟨.lexical, ⟨2, 3⟩, "1 ü", "invalid character 'ü'"⟩) := by
  constructor
  · have hlines : linesOf "f(x) // é\n\n+ 1" = ["f(x) // é", "", "+ 1"] := by decide +kernel
    have hread : ∀ line ∈ linesOf "f(x) // é\n\n+ 1", (tokensOf line).result.isOk = true := by
      decide +kernel
    have htokens := (tokensOf_line_by_line "f(x) // é\n\n+ 1").1 fun line hline =>
      exists_of_isOk (hread line hline)
    rwa [hlines] at htokens
  · have hlines : linesOf "x\n1 ü\n" = ["x"] ++ "1 ü" :: [""] := by decide +kernel
    have hread : ∀ line ∈ ["x"], (tokensOf line).result.isOk = true := by decide +kernel
    have hrefused : (tokensOf "1 ü").result =
        .error (.rejected ⟨.lexical, ⟨1, 3⟩, "1 ü", "invalid character 'ü'"⟩) := by
      decide +kernel
    obtain ⟨d, hd, hresult⟩ := (tokensOf_line_by_line "x\n1 ü\n").2 _ _ _ _ hlines
      (fun line hline => exists_of_isOk (hread line hline)) hrefused
    cases hd
    exact hresult

end MicroGo
