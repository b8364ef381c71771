import MicroGo.Proofs.Token.Spelling

/-!
# What is cut off from a text

A text is cut into pieces from the left, and nothing of it gets lost (`Piece.chars_split`).  What a
piece is can be said without saying how it was found: a run of blanks, a line end, a comment up to
the end of its line, a lexeme that cannot be made longer, or a single character that begins none of
these (`Piece.Fits`).

A lexeme that is cut off is as long as it can be: no digit follows a numeral, no part of a word
follows a word, and a sign is not the first half of a longer sign (`Lexeme.WrittenBefore`).
-/

namespace MicroGo

/-! ## Characters that begin nothing -/

/-- A character that may stand in a comment only: neither a blank nor one of the printing characters
of ASCII. -/
def Piece.isForeign (c : Char) : Bool :=
  !(c = '\t' || c = '\r' || (' ' ≤ c && c ≤ '~'))

/-! ## Lexemes that cannot be made longer -/

/-- **The lexemes that can be written in a text in front of `rest`.**  None of them goes on with the
first character of `rest`. -/
inductive Lexeme.WrittenBefore (rest : List Char) : Lexeme → Prop where
  | num {c : Char} {cs : List Char} (digit : c.isDigit) (digits : ∀ d ∈ cs, d.isDigit)
      (ends : ∀ d ∈ rest.head?, d.isDigit = false) :
      WrittenBefore rest ⟨.num, String.ofList (c :: cs)⟩
  | name {c : Char} {cs : List Char} (start : Piece.isWordStart c)
      (parts : ∀ d ∈ cs, Piece.isWordPart d) (other : String.ofList (c :: cs) ∉ keywords)
      (ends : ∀ d ∈ rest.head?, Piece.isWordPart d = false) :
      WrittenBefore rest ⟨.ident, String.ofList (c :: cs)⟩
  | keyword {text : String} (mem : text ∈ keywords)
      (ends : ∀ d ∈ rest.head?, Piece.isWordPart d = false) :
      WrittenBefore rest (.reserved text)
  | equals {c : Char} (start : Piece.beginsEquals c) :
      WrittenBefore rest (.reserved (String.ofList [c, '=']))
  | sign {c : Char} (sign : Piece.isPunctuation c)
      (equals : Piece.beginsEquals c → rest.head? ≠ some '=')
      (slash : c = '/' → rest.head? ≠ some '/') :
      WrittenBefore rest (.reserved (String.ofList [c]))

namespace Piece

/-- **The pieces that can be cut off in front of `rest`.** -/
inductive Fits (rest : List Char) : Piece → Prop where
  | blank {text : List Char} (blanks : ∀ c ∈ text, isBlank c) : Fits rest (.blank text)
  | lineEnd : Fits rest .lineEnd
  | comment {text : List Char} (line : '\n' ∉ text) (ends : ∀ c ∈ rest.head?, c = '\n') :
      Fits rest (.comment ('/' :: '/' :: text))
  | lexeme {l : Lexeme} (written : l.WrittenBefore rest) : Fits rest (.lexeme l)
  | «foreign» {c : Char} (isForeign : isForeign c) : Fits rest (.foreign c)

variable {p : Char → Bool} {c : Char} {cs : List Char}

/-- The character behind a run is of another class. -/
theorem head?_run_snd : ∀ d ∈ (run p c cs).2.head?, p d = false := by
  intro d hd
  have hnot := List.head?_dropWhile_not p cs
  rw [show (cs.dropWhile p).head? = some d from hd] at hnot
  exact hnot

theorem isBlank_of_mem_run (hc : isBlank c) : ∀ d ∈ (run isBlank c cs).1, isBlank d := by
  intro d hd
  rcases List.mem_cons.1 hd with rfl | hd
  · exact hc
  · exact List.mem_takeWhile_imp hd

/-- Words are made of printing characters. -/
theorem prints_of_isWordPart (h : isWordPart c) : '!' ≤ c ∧ c ≤ '~' := by
  have hclass : isWordPart c = (decide ('A' ≤ c ∧ c ≤ 'Z') || ('a' ≤ c && c ≤ 'z') ||
      ('0' ≤ c && c ≤ '9') || c = '_') := rfl
  have hbetween {a b : Char} (ha : '!' ≤ a) (hb : b ≤ '~') (hc : a ≤ c ∧ c ≤ b) :
      '!' ≤ c ∧ c ≤ '~' := ⟨Char.le_trans ha hc.1, Char.le_trans hc.2 hb⟩
  simp only [hclass, Bool.or_eq_true, Bool.and_eq_true, decide_eq_true_eq] at h
  rcases h with ((hupper | hlower) | hdigit) | rfl
  · exact hbetween (by decide) (by decide) hupper
  · exact hbetween (by decide) (by decide) hlower
  · exact hbetween (by decide) (by decide) hdigit
  · decide

theorem prints_of_isDigit (h : c.isDigit) : '!' ≤ c ∧ c ≤ '~' :=
  prints_of_isWordPart (by simp [isWordPart, Char.isAlphanum, h])

theorem prints_of_isPunctuation (h : isPunctuation c) : '!' ≤ c ∧ c ≤ '~' := by
  simp only [isPunctuation, Bool.and_eq_true, decide_eq_true_eq] at h
  exact h.1

theorem prints_of_beginsEquals (h : beginsEquals c) : '!' ≤ c ∧ c ≤ '~' := by
  simp only [beginsEquals, Bool.or_eq_true, decide_eq_true_eq] at h
  rcases h with ((rfl | rfl) | rfl) | rfl <;> decide

theorem isForeign_of_prints (h : '!' ≤ c ∧ c ≤ '~') : isForeign c = false := by
  have hlow : ' ' ≤ c := Char.le_trans (by decide) h.1
  simp [isForeign, hlow, h.2]

/-- Two slashes begin a comment, which goes on to the end of the line. -/
theorem fits_comment (hc : c = '/') (hcs : cs.head? = some '/') :
    Fits (run (· ≠ '\n') c cs).2 (.comment (run (· ≠ '\n') c cs).1) := by
  subst hc
  obtain ⟨more, rfl⟩ := List.head?_eq_some_iff.1 hcs
  have hrun : (run (· ≠ '\n') '/' ('/' :: more)).1 =
      '/' :: '/' :: more.takeWhile (· ≠ '\n') := rfl
  rw [hrun]
  refine .comment (fun hmem => ?_) fun d hd => ?_
  · have hne := List.mem_takeWhile_imp hmem
    exact of_decide_eq_true hne rfl
  · exact not_not.1 (of_decide_eq_false (head?_run_snd d hd))

/-- A word is a keyword or a name. -/
theorem writtenBefore_ofWord {rest : List Char} (hstart : isWordStart c)
    (hparts : ∀ d ∈ cs, isWordPart d) (hends : ∀ d ∈ rest.head?, isWordPart d = false) :
    (Lexeme.ofWord (String.ofList (c :: cs))).WrittenBefore rest := by
  unfold Lexeme.ofWord
  split
  next hmem => exact .keyword hmem hends
  next hmem => exact .name hstart hparts hmem hends

/-- A character that begins nothing is none of those that print. -/
theorem isForeign_of_begins_nothing (hblank : ¬isBlank c) (hdigit : ¬c.isDigit)
    (hstart : ¬isWordStart c) (hsign : ¬isPunctuation c) : isForeign c := by
  simp only [isBlank, Bool.or_eq_true, decide_eq_true_eq, not_or] at hblank
  obtain ⟨⟨hspace, htab⟩, hreturn⟩ := hblank
  have halpha : c.isAlphanum = false := by
    simp only [isWordStart, Bool.or_eq_true, decide_eq_true_eq, not_or, Bool.not_eq_true]
      at hstart hdigit
    rw [Char.isAlphanum, hstart.1, hdigit, Bool.false_or]
  have hprints : ¬(' ' ≤ c ∧ c ≤ '~') := by
    rintro ⟨hlow, hhigh⟩
    refine hsign ?_
    have hlow' : '!' ≤ c := by
      have hne : c.toNat ≠ ' '.toNat := fun h => hspace (Char.toNat_inj.1 h)
      have hle : ' '.toNat ≤ c.toNat := hlow
      show '!'.toNat ≤ c.toNat
      have h32 : ' '.toNat = 32 := rfl
      have h33 : '!'.toNat = 33 := rfl
      omega
    simp [isPunctuation, hlow', hhigh, halpha]
  simp only [isForeign, htab, hreturn, decide_false, Bool.or_self, Bool.false_or,
    Bool.not_eq_true', Bool.and_eq_false_imp, decide_eq_true_eq, decide_eq_false_iff_not]
  exact fun hlow hhigh => hprints ⟨hlow, hhigh⟩

/-- **The first piece of a text fits in front of the rest of it.** -/
theorem fits_split (c : Char) (cs : List Char) : (split c cs).1.Fits (split c cs).2 := by
  unfold split
  split
  next hblank => exact .blank (isBlank_of_mem_run hblank)
  next hblank =>
  split
  next => exact .lineEnd
  next hline =>
  split
  next hslashes =>
    obtain ⟨hc, hcs⟩ := Bool.and_eq_true_iff.1 hslashes
    exact fits_comment (of_decide_eq_true hc) (of_decide_eq_true hcs)
  next hslashes =>
  split
  next hdigit =>
    exact .lexeme (.num hdigit (fun d hd => List.mem_takeWhile_imp hd) (head?_run_snd (c := c)))
  next hdigit =>
  split
  next hstart =>
    exact .lexeme
      (writtenBefore_ofWord hstart (fun d hd => List.mem_takeWhile_imp hd) (head?_run_snd (c := c)))
  next hstart =>
  split
  next hequals => exact .lexeme (.equals (Bool.and_eq_true_iff.1 hequals).1)
  next hequals =>
  split
  next hsign =>
    refine .lexeme (.sign hsign (fun hbegins hhead => ?_) fun hc hhead => ?_)
    · exact hequals (by simp [hbegins, hhead])
    · exact hslashes (by simp [hc, hhead])
  next hsign => exact .foreign (isForeign_of_begins_nothing hblank hdigit hstart hsign)

/-- **Nothing gets lost.**  The first piece of a text and the rest of it make up the text. -/
theorem chars_split (c : Char) (cs : List Char) :
    (split c cs).1.chars ++ (split c cs).2 = c :: cs := by
  unfold split
  split
  · exact chars_run
  split
  next hline => rw [hline, chars, List.singleton_append]
  split
  · exact chars_run
  split
  · show (String.ofList _).toList ++ _ = _
    rw [String.toList_ofList]
    exact chars_run
  split
  · rw [chars, Lexeme.text_ofWord, String.toList_ofList]
    exact chars_run
  split
  next hequals =>
    obtain ⟨more, rfl⟩ :=
      List.head?_eq_some_iff.1 (of_decide_eq_true (Bool.and_eq_true_iff.1 hequals).2)
    rw [ofChars, chars, String.toList_ofList]
    rfl
  split
  · rw [ofChars, chars, String.toList_ofList, List.singleton_append]
  · rw [chars, List.singleton_append]

end Piece

/-- A text is empty, or a piece that can be cut off and a text behind it. -/
@[elab_as_elim]
theorem pieces_induction {motive : List Char → Prop} (nil : motive [])
    (piece : ∀ p rest, p.Fits rest → pieces (p.chars ++ rest) = p :: pieces rest →
      motive rest → motive (p.chars ++ rest)) (cs : List Char) : motive cs := by
  induction cs using pieces.induct with
  | case1 => exact nil
  | case2 c cs ih =>
    have hsplit := Piece.chars_split c cs
    have hpieces : pieces ((Piece.split c cs).1.chars ++ (Piece.split c cs).2) =
        (Piece.split c cs).1 :: pieces (Piece.split c cs).2 := by rw [hsplit, pieces]
    rw [← hsplit]
    exact piece _ _ (Piece.fits_split c cs) hpieces ih

namespace Lexeme.Written

variable {l : Lexeme}

/-- Lexemes are made of printing characters. -/
theorem prints (h : l.Written) : ∀ c ∈ l.text.toList, '!' ≤ c ∧ c ≤ '~' := by
  intro d hd
  cases h with
  | num digit digits =>
    rw [String.toList_ofList, List.mem_cons] at hd
    rcases hd with rfl | hd
    · exact Piece.prints_of_isDigit digit
    · exact Piece.prints_of_isDigit (digits d hd)
  | name start parts other =>
    rw [String.toList_ofList, List.mem_cons] at hd
    rcases hd with rfl | hd
    · exact Piece.prints_of_isWordPart (Piece.isWordPart_of_isWordStart start)
    · exact Piece.prints_of_isWordPart (parts d hd)
  | keyword mem =>
    have hall : ∀ text ∈ keywords, text.toList.all Piece.isWordPart = true := by decide
    exact Piece.prints_of_isWordPart (List.all_eq_true.1 (hall _ mem) d hd)
  | equals start =>
    simp only [String.toList_ofList, List.mem_cons, List.not_mem_nil, or_false] at hd
    rcases hd with rfl | rfl
    · exact Piece.prints_of_beginsEquals start
    · decide
  | sign sign =>
    rw [String.toList_ofList, List.mem_singleton] at hd
    exact hd ▸ Piece.prints_of_isPunctuation sign

theorem text_ne_nil (h : l.Written) : l.text.toList ≠ [] := by
  cases h with
  | keyword mem =>
    have hall : ∀ text ∈ keywords, text.toList ≠ [] := by decide
    exact hall _ mem
  | num | name | equals | sign =>
    rw [String.toList_ofList]
    exact List.cons_ne_nil _ _

theorem lineEnd_notMem (h : l.Written) : '\n' ∉ l.text.toList :=
  fun hmem => absurd (h.prints _ hmem) (by decide)

end Lexeme.Written

theorem Lexeme.WrittenBefore.toWritten {l : Lexeme} {rest : List Char}
    (h : l.WrittenBefore rest) : l.Written := by
  cases h with
  | num digit digits => exact .num digit digits
  | name start parts other => exact .name start parts other
  | keyword mem => exact .keyword mem
  | equals start => exact .equals start
  | sign sign => exact .sign sign

end MicroGo
