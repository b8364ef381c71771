import MicroGo.Proofs.Grammar.FirstEnd
import MicroGo.Proofs.Token.Insertion

/-!
# Where a diagnostic points

A text is refused for a character or for a token, and the diagnostic names its place.  So the place
always lies in the text, on one of its lines and not further than behind the last character of the
line, and the diagnostic shows this line.

## The caret

Under the line there is a caret, behind as many blanks as there are *bytes* in front of the place.
The caret stands under the place if these are as many as the characters in front of it.  On its line
nothing stands in front of a token but blanks and other tokens, whose characters are of one byte
each; so the caret is where it should be.  There is one exception.  A semicolon that is inferred at
the end of a line also stands behind the comment of the line, and in a comment there may be
characters of several bytes.  For each such byte too many the caret then stands one character too
far to the right.
-/

namespace MicroGo

/-! ## Places on lines -/

/-- **The place stands behind `front` on a line of the text**, in front of `back`. -/
def StandsAt (text : String) (pos : Position) (front back : List Char) : Prop :=
  ∃ above below, linesOf text = above ++ String.ofList (front ++ back) :: below ∧
    pos = ⟨above.length + 1, 1 + Position.byteCount front⟩

theorem ne_lineEnd_of_notMem {l : List Char} (h : '\n' ∉ l) :
    ∀ c ∈ l, decide (c ≠ '\n') = true :=
  fun _ hc => decide_eq_true fun heq => h (heq ▸ hc)

/-- The first line of a text goes on to its first line end. -/
theorem linesOf_eq_cons (cs : List Char) :
    ∃ below, linesOf (String.ofList cs) = String.ofList (cs.takeWhile (· ≠ '\n')) :: below := by
  induction cs using lines_induction with
  | last l hl =>
    exact ⟨[], by rw [linesOf_last hl, List.takeWhile_eq_self_iff.2 (ne_lineEnd_of_notMem hl)]⟩
  | line l below hl _ =>
    refine ⟨linesOf (String.ofList below), ?_⟩
    rw [linesOf_line hl, List.takeWhile_append_of_pos (ne_lineEnd_of_notMem hl),
      List.takeWhile_cons_of_neg (by simp), List.append_nil]

/-- What stands behind a line end is not on the line above it. -/
theorem lastLine_line (l below : List Char) : lastLine (l ++ '\n' :: below) = lastLine below := by
  induction below using List.reverseRecOn with
  | nil => exact lastLine_lineEnd l
  | append_singleton below c ih =>
    rw [← List.cons_append, ← List.append_assoc]
    by_cases hc : c = '\n'
    · rw [hc, lastLine_lineEnd, lastLine_lineEnd]
    · have hline : '\n' ∉ [c] := fun hmem => hc (List.mem_singleton.1 hmem).symm
      rw [lastLine_append _ hline, lastLine_append _ hline, ih]

/-- There are as many lines above a point of a text as there are line ends in front of it. -/
theorem exists_linesOf_append (a b : List Char) :
    ∃ above below, above.length = a.count '\n' ∧
      linesOf (String.ofList (a ++ b)) =
        above ++ String.ofList (lastLine a ++ b.takeWhile (· ≠ '\n')) :: below := by
  induction a using lines_induction with
  | last l hl =>
    obtain ⟨below, hbelow⟩ := linesOf_eq_cons (l ++ b)
    have hlast : lastLine l = l := lastLine_append [] hl
    refine ⟨[], below, (List.count_eq_zero.2 hl).symm, ?_⟩
    rw [hbelow, List.takeWhile_append_of_pos (ne_lineEnd_of_notMem hl), hlast, List.nil_append]
  | line l a hl ih =>
    obtain ⟨above, below, hlength, hlines⟩ := ih
    refine ⟨String.ofList l :: above, below, ?_, ?_⟩
    · rw [List.length_cons, hlength, List.count_append, List.count_eq_zero.2 hl,
        List.count_cons_self, Nat.zero_add]
    · rw [List.append_assoc, List.cons_append, linesOf_line hl, hlines, lastLine_line,
        List.cons_append]

/-- A place behind a part of a text stands on the line that this part ends in. -/
theorem standsAt_behind (a b : List Char) :
    StandsAt (String.ofList (a ++ b)) (.behind a) (lastLine a) (b.takeWhile (· ≠ '\n')) := by
  obtain ⟨above, below, hlength, hlines⟩ := exists_linesOf_append a b
  refine ⟨above, below, hlines, ?_⟩
  rw [hlength, Nat.add_comm]
  rfl

namespace StandsAt

variable {text : String} {pos : Position} {front back : List Char}

/-- The line that the place stands on. -/
theorem getElem?_linesOf (h : StandsAt text pos front back) :
    (linesOf text)[pos.line - 1]? = some (String.ofList (front ++ back)) := by
  obtain ⟨above, below, hlines, rfl⟩ := h
  rw [hlines, Nat.add_sub_cancel, List.getElem?_append_right (Nat.le_refl _), Nat.sub_self]
  rfl

theorem line_le (h : StandsAt text pos front back) :
    1 ≤ pos.line ∧ pos.line ≤ (linesOf text).length := by
  obtain ⟨above, below, hlines, rfl⟩ := h
  rw [hlines, List.length_append, List.length_cons]
  dsimp only
  omega

theorem column_le (h : StandsAt text pos front back) :
    1 ≤ pos.column ∧ pos.column ≤ 1 + (String.ofList (front ++ back)).utf8ByteSize := by
  obtain ⟨above, below, hlines, rfl⟩ := h
  rw [Bytes.utf8ByteSize_ofList, Position.byteCount_append]
  dsimp only
  omega

theorem lineEnd_notMem (h : StandsAt text pos front back) : '\n' ∉ front ++ back := by
  obtain ⟨above, below, hlines, -⟩ := h
  have hmem : String.ofList (front ++ back) ∈ linesOf text := by
    rw [hlines]
    exact List.mem_append_right _ List.mem_cons_self
  have hline := lineEnd_notMem_line hmem
  rwa [String.toList_ofList] at hline

/-- The line is shown without the carriage returns at its end. -/
theorem lineText_eq (h : StandsAt text pos front back) :
    lineText text pos.line = String.ofList ((front ++ back).rdropWhile (· = '\r')) := by
  have hline := h.lineEnd_notMem
  obtain ⟨above, below, hlines, rfl⟩ := h
  rw [lineText_linesOf hlines]
  unfold lineText
  dsimp only
  rw [String.toList_ofList, Nat.sub_self, afterLineEnds,
    List.takeWhile_eq_self_iff.2 (ne_lineEnd_of_notMem hline)]
  rfl

/-- There is only one point of the text at a place, since every character has a byte. -/
theorem unique {front' back' : List Char} (h : StandsAt text pos front back)
    (h' : StandsAt text pos front' back') : front = front' ∧ back = back' := by
  have hline : front ++ back = front' ++ back' :=
    String.ofList_inj.1 (Option.some.inj (h.getElem?_linesOf.symm.trans h'.getElem?_linesOf))
  obtain ⟨above, -, -, rfl⟩ := h
  obtain ⟨above', -, -, hpos⟩ := h'
  have hbytes : Position.byteCount front = Position.byteCount front' :=
    Nat.add_left_cancel (Position.mk.inj hpos).2
  have hempty {xs ys : List Char} (h : Position.byteCount xs = Position.byteCount (xs ++ ys)) :
      ys = [] := by
    have hlength := Bytes.length_le_byteCount ys
    rw [Position.byteCount_append] at h
    exact List.length_eq_zero_iff.1 (by omega)
  rcases List.append_eq_append_iff.1 hline with ⟨more, rfl, rfl⟩ | ⟨more, rfl, rfl⟩
  · rw [hempty hbytes]
    exact ⟨(List.append_nil _).symm, rfl⟩
  · rw [hempty hbytes.symm]
    exact ⟨List.append_nil _, rfl⟩

end StandsAt

/-! ## What is refused -/

theorem exists_firstForeign_of_error {source : String} {e : Failure}
    (h : (Token.scan source).result = .error e) :
    ∃ above front c, FirstForeign source above front c ∧
      e = ⟨.foreignCharacter c, ⟨above.length + 1, 1 + Position.byteCount front⟩⟩ := by
  have hforeign : ∃ line ∈ linesOf source, HasForeign line := by
    by_contra hnone
    have hread : ∀ line ∈ linesOf source, ReadAlone line := fun line hmem =>
      (readAlone_iff (lineEnd_notMem_line hmem)).2 fun hline => hnone ⟨line, hmem, hline⟩
    rw [scan_of_lines hread] at h
    cases h
  obtain ⟨above, front, c, hfirst, hscan⟩ := exists_firstForeign hforeign
  rw [hscan] at h
  exact ⟨above, front, c, hfirst, (Except.error.inj h).symm⟩

/-- The tokens of a text are complained about where one of them stands. -/
theorem exists_token_of_parse_error {text : String} {tokens : List Token} {e : Failure}
    (htokens : (Token.scan text).result = .ok tokens)
    (h : (Program.parse tokens).result = .error e) : ∃ t ∈ tokens, t.pos = e.pos := by
  obtain ⟨ts, hclosed, hkind⟩ := (cut_of_scan htokens).exists_closed
  have hstop : (Token.endOfInput (.behind ([] ++ text.toList))).kind = .eof := rfl
  have hstate := Parser.State.ofTokens_append hkind hstop []
  rw [← hclosed] at hstate
  have hsame : tokens.map Token.toLexeme = tokens.map Token.toLexeme := rfl
  rcases Parser.parse_alike hsame with ⟨p, hp, -⟩ | ⟨complaint, i, he, -⟩
  · rw [hp] at h
    cases h
  · rw [he] at h
    cases h
    refine ⟨_, ?_, rfl⟩
    rw [Parser.State.tokenAt, hstate, hclosed, List.getD_eq_getElem?_getD]
    cases hi : ts[i]? with
    | none => exact List.mem_append_right _ (List.mem_singleton.2 rfl)
    | some t => exact List.mem_append_left _ (List.mem_of_getElem? hi)

/-- **A text is refused for a character or for a token.** -/
theorem refused_cases {source : String} {refusal : Refusal}
    (h : (compile source).result = .error refusal) :
    (∃ above front c, FirstForeign (withLineEnd source) above front c ∧
      refusal = .rejected (.about (withLineEnd source) .lexical
        ⟨above.length + 1, 1 + Position.byteCount front⟩
        ("invalid character " ++ Text.quotedChar c))) ∨
    ∃ tokens t stage message, (tokensOf (withLineEnd source)).result = .ok tokens ∧ t ∈ tokens ∧
      stage ≠ .lexical ∧ refusal = .rejected (.about (withLineEnd source) stage t.pos message) := by
  rcases compile_eq_error.1 h with h | ⟨tokens, htokens, h⟩
  · obtain ⟨e, he, rfl⟩ := Traced.result_mapError_eq_error.1 h
    obtain ⟨above, front, c, hfirst, rfl⟩ := exists_firstForeign_of_error he
    exact .inl ⟨above, front, c, hfirst, rfl⟩
  · obtain ⟨e, he, rfl⟩ := Traced.result_mapError_eq_error.1 h
    obtain ⟨t, ht, hpos⟩ := exists_token_of_parse_error (Traced.result_mapError_eq_ok.1 htokens) he
    have hstage : e.complaint.stage ≠ .lexical := by
      have htoken := Parser.isAboutTokens_of_parse he
      cases hc : e.complaint with
      | foreignCharacter c =>
        rw [hc] at htoken
        exact htoken.elim
      | _ => exact fun hstage => by cases hstage
    exact .inr ⟨tokens, t, _, _, htokens, ht, hstage, by rw [hpos]; rfl⟩

/-! ## What is shown -/

/-- Blanks are passed over in the search for another character. -/
theorem takeWhile_blanks (n : Nat) {mark : Char} (h : ' ' ≠ mark) (rest : List Char) :
    (List.replicate n ' ' ++ rest).takeWhile (· ≠ mark) =
      List.replicate n ' ' ++ rest.takeWhile (· ≠ mark) :=
  List.takeWhile_append_of_pos fun c hc => by
    rw [List.eq_of_mem_replicate hc]
    exact decide_eq_true h

namespace Diagnostic

variable {d : Diagnostic}

/-- The line is shown above the caret, and there is one blank under each byte in front of the
place. -/
theorem linesOf_render (h : '\n' ∉ d.lineText.toList) :
    ∃ more below, linesOf d.render = d.lineText ::
      String.ofList (List.replicate (d.pos.column - 1) ' ' ++ '^' :: more) :: below := by
  obtain ⟨marked, hmarked⟩ : ∃ marked,
      (s!"^ [{d.pos.line}:{d.pos.column}] " ++ d.message).toList = '^' :: marked := by
    have hmark : (toString "^ [").toList = ['^', ' ', '['] := by decide
    simp only [String.toList_append, hmark, List.cons_append]
    exact ⟨_, rfl⟩
  have hrender : d.render = String.ofList (d.lineText.toList ++ '\n' ::
      (List.replicate (d.pos.column - 1) ' ' ++ '^' :: marked)) := by
    rw [← hmarked]
    apply String.toList_inj.1
    simp only [render, String.toList_append, String.toList_ofList, List.append_assoc]
    rfl
  obtain ⟨below, hbelow⟩ :=
    linesOf_eq_cons (List.replicate (d.pos.column - 1) ' ' ++ '^' :: marked)
  rw [takeWhile_blanks _ (by decide), List.takeWhile_cons_of_pos (by decide)] at hbelow
  exact ⟨_, below, by rw [hrender, linesOf_line h, hbelow, String.ofList_toList]⟩

/-- **The diagnostic points into the text.**  Its place is that of the first foreign character, or
that of a token; the line is one of the text, the column is not past the end of the line, and the
line is what is shown first. -/
structure PointsInto (text : String) (d : Diagnostic) : Prop where
  place :
    (d.stage = .lexical ∧ ∃ above front c, FirstForeign text above front c ∧
      d.pos = ⟨above.length + 1, 1 + Position.byteCount front⟩) ∨
    ((d.stage = .syntactic ∨ d.stage = .declaration) ∧ ∃ tokens t,
      (tokensOf text).result = .ok tokens ∧ t ∈ tokens ∧ d.pos = t.pos)
  line : 1 ≤ d.pos.line ∧ d.pos.line ≤ (linesOf text).length
  shown : ∃ piece, (linesOf text)[d.pos.line - 1]? = some piece ∧
    (1 ≤ d.pos.column ∧ d.pos.column ≤ 1 + piece.utf8ByteSize) ∧
    (linesOf d.render).head? = some (String.ofList (piece.toList.rdropWhile (· = '\r')))

end Diagnostic

/-! ## What stands in front of a token -/

/-- The characters are those of the language. -/
def Known (text : List Char) : Prop :=
  ∀ c ∈ text, Piece.isForeign c = false

theorem known_nil : Known [] :=
  List.forall_mem_nil _

theorem Known.append {xs ys : List Char} (hxs : Known xs) (hys : Known ys) : Known (xs ++ ys) :=
  List.forall_mem_append.2 ⟨hxs, hys⟩

/-- A line that ends in a comment. -/
def Commented (line : List Char) : Prop :=
  ∃ code comment, line = code ++ '/' :: '/' :: comment ∧ Known code

/-- **What has been passed of a line.**  There are characters of the language; and, where the line
ends, there may be a comment behind them. -/
def Passed (front rest : List Char) : Prop :=
  Known (lastLine front) ∨ Commented (lastLine front) ∧ ∀ c ∈ rest.head?, c = '\n'

theorem passed_lineEnd (front rest : List Char) : Passed (front ++ ['\n']) rest := by
  refine .inl ?_
  rw [lastLine_lineEnd]
  exact known_nil

/-- There is no comment in front of something else on the line. -/
theorem Passed.known {front rest : List Char} {c : Char} (h : Passed front (c :: rest))
    (hc : c ≠ '\n') : Known (lastLine front) := by
  rcases h with h | ⟨-, hends⟩
  · exact h
  · exact absurd (hends c rfl) hc

theorem Passed.append {front text rest : List Char} (h : Passed front (text ++ rest))
    (htext : text ≠ []) (hline : '\n' ∉ text) (hknown : Known text) :
    Known (lastLine front) ∧ Passed (front ++ text) rest := by
  obtain ⟨c, cs, rfl⟩ := List.exists_cons_of_ne_nil htext
  have hfront := h.known fun hc => hline (hc ▸ List.mem_cons_self)
  refine ⟨hfront, .inl ?_⟩
  rw [lastLine_append front hline]
  exact hfront.append hknown

/-- **A token in the text `rest`, which stands behind `front`.**  On its line there are characters
of the language in front of it.  There is a comment only in front of the end of the input and of a
semicolon that stands where the line ends. -/
def Token.PlacedIn (front rest : List Char) (t : Token) : Prop :=
  ∃ a b, rest = a ++ b ∧ t.pos = .behind (front ++ a) ∧
    (Known (lastLine (front ++ a)) ∨ Commented (lastLine (front ++ a)) ∧
      (b = [] ∨ b.head? = some '\n' ∧ t.toLexeme = .reserved ";"))

theorem Token.PlacedIn.later {front rest : List Char} {t : Token} (passed : List Char)
    (h : t.PlacedIn (front ++ passed) rest) : t.PlacedIn front (passed ++ rest) := by
  obtain ⟨a, b, rfl, h⟩ := h
  rw [List.append_assoc] at h
  exact ⟨passed ++ a, b, (List.append_assoc ..).symm, h⟩

theorem Cut.placedIn {front rest : List Char} {tokens : List Token} (h : Cut front rest tokens)
    (hpassed : Passed front rest) : ∀ t ∈ tokens, t.PlacedIn front rest := by
  -- the token ahead, if there may be a comment only where this is allowed
  have hhere {front rest : List Char} {l : Lexeme}
      (h : Known (lastLine front) ∨ Commented (lastLine front) ∧
        (rest = [] ∨ rest.head? = some '\n' ∧ l = .reserved ";")) :
      (Token.mk l (.behind front)).PlacedIn front rest := by
    refine ⟨[], rest, rfl, ?_, ?_⟩
    · rw [List.append_nil]
    · rw [List.append_nil]
      exact h
  induction h with
  | done =>
    intro t ht
    rw [List.mem_singleton.1 ht]
    exact hhere (hpassed.imp_right fun h => ⟨h.1, .inl rfl⟩)
  | @blank front rest c tokens isBlank later ih =>
    have hblank : ∀ d ∈ [c], Piece.isBlank d := fun d hd => List.mem_singleton.1 hd ▸ isBlank
    have hline : '\n' ∉ [c] := fun hmem => absurd (hblank _ hmem) (by decide)
    have hpasses : Passes rest [c] := passes_blank hblank
    have hfront : Passed front ([c] ++ rest) := hpassed
    have hlater := (hfront.append (List.cons_ne_nil c []) hline hpasses.known).2
    exact fun t ht => (ih hlater t ht).later [c]
  | @comment front text rest tokens line ends later ih =>
    have hfront : Known (lastLine front) := hpassed.known (by decide)
    have hline : '\n' ∉ '/' :: '/' :: text := by simp [line]
    have hlater : Passed (front ++ '/' :: '/' :: text) rest := by
      refine .inr ⟨?_, ends⟩
      rw [lastLine_append front hline]
      exact ⟨_, text, rfl, hfront⟩
    exact fun t ht => (ih hlater t ht).later _
  | lineEnd later ih => exact fun t ht => (ih (passed_lineEnd _ _) t ht).later ['\n']
  | inferred later ih =>
    intro t ht
    rcases List.mem_cons.1 ht with rfl | ht
    · exact hhere (hpassed.imp_right fun h => ⟨h.1, .inr ⟨rfl, rfl⟩⟩)
    · exact (ih (passed_lineEnd _ _) t ht).later ['\n']
  | written written later ih =>
    have hwritten := written.toWritten
    obtain ⟨hfront, hlater⟩ := hpassed.append hwritten.text_ne_nil hwritten.lineEnd_notMem
      (passes_lexeme written).known
    intro t ht
    rcases List.mem_cons.1 ht with rfl | ht
    · exact hhere (.inl hfront)
    · exact (ih hlater t ht).later _

/-- A token of a text stands on one of its lines; and behind a comment of the line only if it is a
semicolon at the end of the line. -/
theorem exists_standsAt_of_token {text : String} {tokens : List Token} {t : Token}
    (htext : endsInLineEnd text) (htokens : (Token.scan text).result = .ok tokens)
    (ht : t ∈ tokens) :
    ∃ front back, StandsAt text t.pos front back ∧
      (Known front ∨ Commented front ∧ back = [] ∧ t.toLexeme = .reserved ";") := by
  have hstart : Passed [] text.toList := .inl known_nil
  obtain ⟨a, b, hab, hpos, hfront⟩ := (cut_of_scan htokens).placedIn hstart t ht
  rw [List.nil_append] at hpos hfront
  have hstands := standsAt_behind a b
  rw [← hab, String.ofList_toList, ← hpos] at hstands
  refine ⟨_, _, hstands, ?_⟩
  rcases hfront with hknown | ⟨hcomment, rfl | ⟨hhead, hl⟩⟩
  · exact .inl hknown
  · -- nothing stands on the last line of a text that ends in a line end
    rw [List.append_nil] at hab
    rw [endsInLineEnd, decide_eq_true_eq, hab] at htext
    obtain ⟨above, rfl⟩ := List.getLast?_eq_some_iff.1 htext
    rw [lastLine_lineEnd]
    exact .inl known_nil
  · obtain ⟨below, rfl⟩ := List.head?_eq_some_iff.1 hhead
    exact .inr ⟨hcomment, List.takeWhile_cons_of_neg (by decide), hl⟩

/-! ## Diagnostics -/

/-- The place of a diagnostic, and the line that it shows. -/
structure Diagnostic.Place (text : String) (d : Diagnostic) (front back : List Char) : Prop where
  standsAt : StandsAt text d.pos front back
  lineText : d.lineText = MicroGo.lineText text d.pos.line
  front : Known front ∨ Commented front ∧ back = [] ∧
    ∃ tokens, (tokensOf text).result = .ok tokens ∧ ⟨.reserved ";", d.pos⟩ ∈ tokens

theorem exists_place_of_refused {source : String} {d : Diagnostic}
    (h : (compile source).result = .error (.rejected d)) :
    ∃ front back, d.Place (withLineEnd source) front back := by
  rcases refused_cases h with ⟨above, front, c, hfirst, hd⟩ |
    ⟨tokens, t, stage, message, htokens, ht, -, hd⟩
  · obtain ⟨back, below, hlines⟩ := hfirst.line
    cases hd
    exact ⟨front, c :: back, ⟨above, below, hlines, rfl⟩, rfl, .inl hfirst.frontKnown⟩
  · have hscan := Traced.result_mapError_eq_ok.1 htokens
    obtain ⟨front, back, hstands, hfront⟩ :=
      exists_standsAt_of_token (endsInLineEnd_withLineEnd source) hscan ht
    cases hd
    refine ⟨front, back, hstands, rfl, ?_⟩
    rcases hfront with hknown | ⟨hcomment, hback, hl⟩
    · exact .inl hknown
    · exact .inr ⟨hcomment, hback, tokens, htokens, hl ▸ ht⟩

namespace Diagnostic.Place

variable {text : String} {d : Diagnostic} {front back : List Char}

theorem lineText_eq (h : d.Place text front back) :
    d.lineText = String.ofList ((front ++ back).rdropWhile (· = '\r')) := by
  rw [h.lineText, h.standsAt.lineText_eq]

theorem lineEnd_notMem (h : d.Place text front back) : '\n' ∉ d.lineText.toList := by
  rw [h.lineText_eq, String.toList_ofList]
  exact fun hmem => h.standsAt.lineEnd_notMem ((List.rdropWhile_prefix _ _).subset hmem)

end Diagnostic.Place

/-- **Every diagnostic points into the text.** -/
theorem refused_pointing {source : String} {refusal : Refusal}
    (h : (compile source).result = .error refusal) :
    ∃ d, refusal = .rejected d ∧ d.PointsInto (withLineEnd source) := by
  have hd : ∃ d, refusal = .rejected d := by
    rcases refused_cases h with ⟨_, _, _, -, hd⟩ | ⟨_, _, _, _, -, -, -, hd⟩
    · exact ⟨_, hd⟩
    · exact ⟨_, hd⟩
  obtain ⟨d, rfl⟩ := hd
  obtain ⟨front, back, hplace⟩ := exists_place_of_refused h
  refine ⟨d, rfl, ?_, hplace.standsAt.line_le, _, hplace.standsAt.getElem?_linesOf,
    hplace.standsAt.column_le, ?_⟩
  · rcases refused_cases h with ⟨above, front, c, hfirst, hd⟩ |
      ⟨tokens, t, stage, message, htokens, ht, hstage, hd⟩
    · cases hd
      exact .inl ⟨rfl, above, front, c, hfirst, rfl⟩
    · cases hd
      refine .inr ⟨?_, tokens, t, htokens, ht, rfl⟩
      cases stage with
      | lexical => exact absurd rfl hstage
      | syntactic => exact .inl rfl
      | declaration => exact .inr rfl
  · obtain ⟨more, below, hrender⟩ := Diagnostic.linesOf_render hplace.lineEnd_notMem
    rw [hrender, List.head?_cons, hplace.lineText_eq, String.toList_ofList]

/-- The semicolon behind a name, on a line with a comment and a carriage return. -/
theorem refused_pointing_comment :
    ∃ d, (compile "\nfunc f // é\r\n(").result = .error (.rejected d) ∧ d.pos = ⟨2, 14⟩ ∧
      d.PointsInto (withLineEnd "\nfunc f // é\r\n(") := by
  have hrun : (compile "\nfunc f // é\r\n(").result = .error (.rejected
      ⟨.syntactic, ⟨2, 14⟩, "func f // é", "expected \"(\", but got \";\""⟩) := by
    decide +kernel
  obtain ⟨d, hd, hpoints⟩ := refused_pointing hrun
  cases hd
  exact ⟨_, hrun, rfl, hpoints⟩

/-! ## Carets -/

/-- The number of characters in front of the caret, on the second line of a text. -/
def caretOffset (text : String) : Nat :=
  (((linesOf text).getD 1 "").toList.takeWhile (· ≠ '^')).length

/-- **The place is that of a semicolon behind a comment with a character of several bytes.**  The
semicolon stands at the end of the line. -/
def Position.IsBehindWideComment (text : String) (pos : Position) : Prop :=
  ∃ tokens code comment, (tokensOf text).result = .ok tokens ∧ ⟨.reserved ";", pos⟩ ∈ tokens ∧
    StandsAt text pos (code ++ '/' :: '/' :: comment) [] ∧ Known code ∧
    ∃ c ∈ comment, 1 < c.utf8Size

theorem Diagnostic.caretOffset_render {d : Diagnostic} (h : '\n' ∉ d.lineText.toList) :
    caretOffset d.render = d.pos.column - 1 := by
  obtain ⟨more, below, hlines⟩ := linesOf_render h
  rw [caretOffset, hlines, List.getD_cons_succ, List.getD_cons_zero, String.toList_ofList,
    takeWhile_blanks _ (by decide), List.takeWhile_cons_of_neg (by decide), List.append_nil,
    List.length_replicate]

/-- The characters of the language have one byte each. -/
theorem utf8Size_of_known {c : Char} (h : Piece.isForeign c = false) : c.utf8Size = 1 := by
  apply Bytes.utf8Size_ascii
  simp only [Piece.isForeign, Bool.not_eq_false', Bool.or_eq_true, Bool.and_eq_true,
    decide_eq_true_eq] at h
  rcases h with (rfl | rfl) | ⟨-, hle⟩
  · decide
  · decide
  · have hle : c.toNat ≤ '~'.toNat := hle
    exact Nat.lt_of_le_of_lt hle (by decide)

/-- A text has as many bytes as characters if each of them has one byte. -/
theorem byteCount_eq_length_iff (text : List Char) :
    Position.byteCount text = text.length ↔ ∀ c ∈ text, c.utf8Size = 1 := by
  induction text with
  | nil => simp [Position.byteCount]
  | cons c cs ih =>
    have hc := c.utf8Size_pos
    have hcs := Bytes.length_le_byteCount cs
    rw [List.forall_mem_cons, ← ih]
    show c.utf8Size + Position.byteCount cs = cs.length + 1 ↔ _
    omega

/-- A semicolon behind a comment has wide characters in front of it if the comment holds some. -/
theorem Diagnostic.Place.isBehindWideComment_iff {text : String} {d : Diagnostic}
    {front back : List Char} (h : d.Place text front back) :
    d.pos.IsBehindWideComment text ↔ ¬∀ c ∈ front, c.utf8Size = 1 := by
  constructor
  · rintro ⟨tokens, code, comment, -, -, hstands, -, c, hc, hwide⟩ hfront
    obtain ⟨rfl, rfl⟩ := h.standsAt.unique hstands
    have hone := hfront c (List.mem_append_right _ (List.mem_cons_of_mem _ (.tail _ hc)))
    omega
  · intro hwide
    rcases h.front with hknown | ⟨⟨code, comment, rfl, hcode⟩, rfl, tokens, htokens, ht⟩
    · exact absurd (fun c hc => utf8Size_of_known (hknown c hc)) hwide
    · refine ⟨tokens, code, comment, htokens, ht, h.standsAt, hcode, ?_⟩
      by_contra hnone
      refine hwide (List.forall_mem_append.2 ⟨fun c hc => utf8Size_of_known (hcode c hc), ?_⟩)
      have hcomment : ∀ c ∈ comment, c.utf8Size = 1 := by
        intro c hc
        have hle : ¬1 < c.utf8Size := fun hlt => hnone ⟨c, hc, hlt⟩
        have hpos := c.utf8Size_pos
        omega
      exact List.forall_mem_cons.2 ⟨by decide, List.forall_mem_cons.2 ⟨by decide, hcomment⟩⟩

/-- **When the caret stands under the place.**  There are as many blanks in front of it as there are
bytes in front of the place.  This is the number of the characters there, with one exception: if the
complaint is about a semicolon at the end of a line, and the line has a comment with a character of
several bytes, then the caret stands too far to the right.
-/
theorem caretOffset_eq_iff {source : String} {d : Diagnostic}
    (h : (compile source).result = .error (.rejected d)) :
    ∃ front back, StandsAt (withLineEnd source) d.pos front back ∧
      caretOffset d.render = Position.byteCount front ∧
      (caretOffset d.render = front.length ↔ ¬d.pos.IsBehindWideComment (withLineEnd source)) := by
  obtain ⟨front, back, hplace⟩ := exists_place_of_refused h
  have hcaret : caretOffset d.render = Position.byteCount front := by
    rw [Diagnostic.caretOffset_render hplace.lineEnd_notMem]
    obtain ⟨above, below, -, hpos⟩ := hplace.standsAt
    rw [hpos, Nat.add_sub_cancel_left]
  refine ⟨front, back, hplace.standsAt, hcaret, ?_⟩
  rw [hcaret, byteCount_eq_length_iff, hplace.isBehindWideComment_iff, not_not]

/-- A name without a type, behind an opening parenthesis and in front of a comment: the caret stands
under the place, which is not the end of the line. -/
theorem caretOffset_eq_iff_parameter :
    ∃ d front back, (compile "func f(a) // é").result = .error (.rejected d) ∧
      StandsAt (withLineEnd "func f(a) // é") d.pos front back ∧
      front.length = 8 ∧ caretOffset d.render = 8 ∧
      ¬d.pos.IsBehindWideComment (withLineEnd "func f(a) // é") := by
  have hrun : (compile "func f(a) // é").result = .error (.rejected
      ⟨.syntactic, ⟨1, 9⟩, "func f(a) // é", "expected a type, but got \")\""⟩) := by
    decide +kernel
  obtain ⟨front, back, hstands, hcaret, hiff⟩ := caretOffset_eq_iff hrun
  have hstands' : StandsAt (withLineEnd "func f(a) // é") ⟨1, 9⟩ "func f(a".toList
      ") // é".toList :=
    ⟨[], [""], by decide +kernel, by decide +kernel⟩
  obtain ⟨rfl, rfl⟩ := hstands.unique hstands'
  have hoffset := hcaret.trans (by decide +kernel : _ = 8)
  exact ⟨_, _, _, hrun, hstands, by decide +kernel, hoffset,
    hiff.1 (hoffset.trans (by decide +kernel))⟩

/-- **The caret can stand too far to the right.**  The semicolon that is inferred at the end of the
line has eleven characters in front of it, and the caret has twelve. -/
theorem caretOffset_inferred_semicolon :
    ∃ d, (compile "func f // é").result = .error (.rejected d) ∧
      ∀ front back, StandsAt (withLineEnd "func f // é") d.pos front back →
        front.length = 11 ∧ caretOffset d.render = 12 := by
  have hrun : (compile "func f // é").result = .error (.rejected
      ⟨.syntactic, ⟨1, 13⟩, "func f // é", "expected \"(\", but got \";\""⟩) := by
    decide +kernel
  refine ⟨_, hrun, fun front back h => ?_⟩
  have hstands : StandsAt (withLineEnd "func f // é") ⟨1, 13⟩ "func f // é".toList [] :=
    ⟨[], [""], by decide +kernel, by decide +kernel⟩
  obtain ⟨rfl, -⟩ := h.unique hstands
  exact ⟨by decide +kernel, by decide +kernel⟩

end MicroGo
