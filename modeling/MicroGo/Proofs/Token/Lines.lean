import MicroGo.Compile
import MicroGo.Proofs.Token.Scanning

/-!
# Texts one below the other

No piece of a text goes on behind the end of a line, so the pieces of a text are those of its lines
(`pieces_append`).  The state of scanning that is carried on from one line to the next is the number
of the line and the tokens so far, and of these tokens only those on the same line are looked at.

So a text that ends in a line end may be put in front of another one.  The tokens of the whole are
those of the first text, and those of the second one moved down by as many lines as the first one
has (`scan_append`).
-/

namespace MicroGo

/-! ## Pieces and line ends -/

namespace Piece

variable {p : Char → Bool} {c : Char} {cs xs ys : List Char}

/-- A run ends in front of a line end. -/
theorem run_append (hp : p '\n' = false) :
    run p c (xs ++ '\n' :: ys) = ((run p c xs).1, (run p c xs).2 ++ '\n' :: ys) := by
  induction xs generalizing c with
  | nil => simp [run, hp]
  | cons x xs ih =>
      have ih' := Prod.mk.inj (ih (c := c))
      cases hx : p x with
      | true =>
          simp only [run, List.cons.injEq, true_and] at ih'
          simp [run, hx, ih'.1, ih'.2]
      | false => simp [run, hx]

theorem head?_append_lineEnd (hc : c ≠ '\n') :
    (xs ++ '\n' :: ys).head? = some c ↔ xs.head? = some c := by
  cases xs with
  | nil => simp [hc.symm]
  | cons x xs => rfl

/-- **No piece goes on behind a line end.** -/
theorem split_append :
    split c (xs ++ '\n' :: ys) = ((split c xs).1, (split c xs).2 ++ '\n' :: ys) := by
  have hslash : ((xs ++ '\n' :: ys).head? = some '/') = (xs.head? = some '/') :=
    propext (head?_append_lineEnd (by decide))
  have hequals : ((xs ++ '\n' :: ys).head? = some '=') = (xs.head? = some '=') :=
    propext (head?_append_lineEnd (by decide))
  unfold split
  simp only [run_append (p := isBlank) rfl, run_append (p := fun d => decide (d ≠ '\n')) rfl,
    run_append (p := Char.isDigit) rfl, run_append (p := isWordPart) rfl, hslash, hequals]
  split
  · rfl
  split
  · rfl
  split
  · rfl
  split
  · rfl
  split
  · rfl
  split
  · next h =>
      have hhead := of_decide_eq_true (Bool.and_eq_true_iff.1 h).2
      cases xs with
      | nil => cases hhead
      | cons x xs => rfl
  split
  · rfl
  · rfl

/-- A run is made of the characters that it takes. -/
theorem chars_run : (run p c cs).1 ++ (run p c cs).2 = c :: cs := by
  rw [run, List.cons_append, List.takeWhile_append_dropWhile]

theorem count_run (hp : p '\n' = false) (hc : c ≠ '\n') :
    (run p c cs).2.count '\n' = (c :: cs).count '\n' := by
  have hrun : (run p c cs).1.count '\n' = 0 := by
    rw [List.count_eq_zero]
    intro hmem
    rcases List.mem_cons.1 hmem with h | h
    · exact hc h.symm
    · rw [List.mem_takeWhile_imp h] at hp
      cases hp
  have hchars : (run p c cs).1 ++ (run p c cs).2 = c :: cs := chars_run
  rw [← hchars, List.count_append, hrun, Nat.zero_add]

/-- The piece is a line end if and only if it takes one from the text. -/
theorem count_split :
    (c :: cs).count '\n' =
      (if (split c cs).1 = .lineEnd then 1 else 0) + (split c cs).2.count '\n' := by
  unfold split
  split
  · next h =>
      rw [if_neg (by simp), Nat.zero_add, count_run rfl]
      rintro rfl
      cases h
  split
  · next h =>
      rw [if_pos rfl, h, List.count_cons_self, Nat.add_comm]
  next hc =>
  split
  · rw [if_neg (by simp), Nat.zero_add, count_run (by simp) hc]
  split
  · rw [if_neg (by simp [ofChars]), Nat.zero_add, count_run rfl hc]
  split
  · rw [if_neg (by simp), Nat.zero_add, count_run rfl hc]
  split
  · next h =>
      have hhead := of_decide_eq_true (Bool.and_eq_true_iff.1 h).2
      cases cs with
      | nil => cases hhead
      | cons d cs =>
          obtain rfl : d = '=' := Option.some.inj hhead
          rw [if_neg (by simp [ofChars]), Nat.zero_add, List.count_cons_of_ne hc,
            List.count_cons_of_ne (by decide)]
          rfl
  split
  · rw [if_neg (by simp [ofChars]), Nat.zero_add, List.count_cons_of_ne hc]
  · rw [if_neg (by simp), Nat.zero_add, List.count_cons_of_ne hc]

end Piece

/-- **The pieces of a text are those of its lines.** -/
theorem pieces_append (xs ys : List Char) :
    pieces (xs ++ '\n' :: ys) = pieces xs ++ .lineEnd :: pieces ys := by
  induction xs using pieces.induct with
  | case1 =>
      have hsplit : Piece.split '\n' ys = (.lineEnd, ys) := rfl
      rw [List.nil_append, pieces, List.nil_append, pieces, hsplit]
  | case2 c cs ih => rw [List.cons_append, pieces, Piece.split_append, ih, pieces, List.cons_append]

theorem count_lineEnd_pieces (cs : List Char) : (pieces cs).count .lineEnd = cs.count '\n' := by
  induction cs using pieces.induct with
  | case1 =>
      rw [pieces]
      rfl
  | case2 c cs ih =>
      rw [pieces, List.count_cons, ih, Piece.count_split, Nat.add_comm]
      simp only [beq_iff_eq]

/-! ## Places -/

/-- The place `k` lines further down. -/
def Position.below (k : Nat) (pos : Position) : Position :=
  ⟨pos.line + k, pos.column⟩

/-- The token `k` lines further down. -/
def Token.below (k : Nat) (t : Token) : Token :=
  { t with pos := t.pos.below k }

namespace Scan

variable {s t : Scan} {ps : List Piece}

/-- No token stands below the place that was reached. -/
def Above (s : Scan) : Prop :=
  ∀ x ∈ s.tokens.toList, x.pos.line ≤ s.pos.line

theorem pos_endLine (s : Scan) : s.endLine.pos = s.pos.nextLine := by
  unfold endLine
  split <;> rfl

/-- A line end adds a semicolon at the place that was reached, or nothing. -/
theorem tokens_endLine (s : Scan) :
    s.endLine.tokens.toList =
      s.tokens.toList ++ s.unfinished?.toList.map fun _ => ⟨.reserved ";", s.pos⟩ := by
  unfold endLine
  cases s.unfinished? with
  | none => exact (List.append_nil _).symm
  | some last => exact Array.toList_push

theorem Above.endLine (h : s.Above) : ∀ x ∈ s.endLine.tokens.toList, x.pos.line ≤ s.pos.line := by
  intro x hx
  rw [tokens_endLine, List.mem_append] at hx
  rcases hx with hx | hx
  · exact h x hx
  · obtain ⟨last, -, rfl⟩ := List.mem_map.1 hx
    exact Nat.le_refl _

/-- Reading goes down by as many lines as there are line ends, and takes tokens on its way. -/
theorem Above.readPieces (h : s.Above) (hrun : s.readPieces ps = .ok t) :
    t.Above ∧ t.pos.line = s.pos.line + ps.count .lineEnd := by
  induction ps generalizing s with
  | nil =>
      cases hrun
      exact ⟨h, rfl⟩
  | cons p ps ih =>
      rw [readPieces_cons] at hrun
      cases p with
      | blank text => exact ih (s := s.skip text) h hrun
      | comment text => exact ih (s := s.skip text) h hrun
      | lineEnd =>
          have hnext : s.endLine.Above := by
            intro x hx
            rw [pos_endLine]
            exact Nat.le_succ_of_le (h.endLine x hx)
          obtain ⟨ht, hline⟩ := ih hnext hrun
          have hdown : s.endLine.pos.line = s.pos.line + 1 := by
            rw [pos_endLine]
            rfl
          refine ⟨ht, ?_⟩
          rw [hline, hdown, List.count_cons_self]
          omega
      | lexeme l =>
          refine ih (s := s.take l) (fun x hx => ?_) hrun
          rw [Scan.take, Array.toList_push, List.mem_append, List.mem_singleton] at hx
          rcases hx with hx | rfl
          · exact h x hx
          · exact Nat.le_refl _
      | «foreign» c => cases hrun

/-! ## Reading below another text -/

/-- The state `t` is the state `s` moved down by `k` lines, below the tokens `front`. -/
structure Below (front : List Token) (k : Nat) (s t : Scan) : Prop where
  pos : t.pos = s.pos.below k
  tokens : t.tokens.toList = front ++ s.tokens.toList.map (Token.below k)
  line : 1 ≤ s.pos.line

variable {front : List Token} {k : Nat}

/-- The tokens above are on other lines, so the same semicolons are inferred. -/
theorem Below.unfinished?_eq (h : Below front k s t) (hfront : ∀ x ∈ front, x.pos.line ≤ k) :
    t.unfinished? = s.unfinished?.map (Token.below k) := by
  unfold unfinished?
  rw [← Array.getLast?_toList, ← Array.getLast?_toList, h.tokens, h.pos, List.getLast?_append,
    List.getLast?_map]
  cases hlast : s.tokens.toList.getLast? with
  | none =>
      cases hfirst : front.getLast? with
      | none => rfl
      | some x =>
          have hx := hfront x (List.mem_of_getLast? hfirst)
          have hline := h.line
          have hne : x.pos.line ≠ (s.pos.below k).line := by
            show x.pos.line ≠ s.pos.line + k
            omega
          simp [Option.filter, hne]
  | some x =>
      have hsame : ((x.below k).pos.line = (s.pos.below k).line) = (x.pos.line = s.pos.line) :=
        propext (Nat.add_right_cancel_iff)
      have hends : (x.below k).endsStatement = x.endsStatement := rfl
      simp only [Option.map_some, Option.some_or, Option.filter, hsame, hends]
      split <;> rfl

theorem Below.endLine (h : Below front k s t) (hfront : ∀ x ∈ front, x.pos.line ≤ k) :
    Below front k s.endLine t.endLine := by
  refine ⟨?_, ?_, ?_⟩
  · rw [pos_endLine, pos_endLine, h.pos, Position.nextLine, Position.nextLine, Position.below,
      Position.below]
    simp only [Position.mk.injEq, and_true]
    omega
  · rw [tokens_endLine, tokens_endLine, h.unfinished?_eq hfront, h.tokens, h.pos]
    cases s.unfinished? with
    | none => simp
    | some last => simp [Token.below]
  · rw [pos_endLine]
    exact Nat.le_succ_of_le h.line

theorem Below.take (h : Below front k s t) (l : Lexeme) :
    Below front k (s.take l) (t.take l) := by
  refine ⟨?_, ?_, h.line⟩
  · show t.pos.after _ = (s.pos.after _).below k
    rw [h.pos]
    rfl
  · rw [Scan.take, Scan.take, Array.toList_push, Array.toList_push, h.tokens, h.pos,
      List.map_append, List.append_assoc]
    rfl

theorem Below.readPieces {s' : Scan} (h : Below front k s t)
    (hfront : ∀ x ∈ front, x.pos.line ≤ k) (hrun : s.readPieces ps = .ok s') :
    ∃ t', t.readPieces ps = .ok t' ∧ Below front k s' t' := by
  induction ps generalizing s t with
  | nil =>
      cases hrun
      exact ⟨t, rfl, h⟩
  | cons p ps ih =>
      rw [readPieces_cons] at hrun ⊢
      cases p with
      | blank text =>
          refine ih (s := s.skip text) (t := t.skip text) ⟨?_, h.tokens, h.line⟩ hrun
          show t.pos.after _ = (s.pos.after _).below k
          rw [h.pos]
          rfl
      | comment text =>
          refine ih (s := s.skip text) (t := t.skip text) ⟨?_, h.tokens, h.line⟩ hrun
          show t.pos.after _ = (s.pos.after _).below k
          rw [h.pos]
          rfl
      | lineEnd => exact ih (h.endLine hfront) hrun
      | lexeme l => exact ih (h.take l) hrun
      | «foreign» c => cases hrun

/-- What was read before a line end that stands last. -/
theorem exists_endLine {xs : List Char}
    (h : ({} : Scan).readPieces (pieces (xs ++ ['\n'])) = .ok s) :
    ∃ u, ({} : Scan).readPieces (pieces xs) = .ok u ∧ u.endLine = s := by
  rw [pieces_append, pieces, readPieces_append] at h
  cases hrun : ({} : Scan).readPieces (pieces xs) with
  | error e =>
      rw [hrun] at h
      cases h
  | ok u =>
      rw [hrun] at h
      exact ⟨u, rfl, Except.ok.inj h⟩

/-- Behind a line end reading starts afresh, below the tokens so far. -/
theorem below_of_lineEnd {xs : List Char}
    (h : ({} : Scan).readPieces (pieces (xs ++ ['\n'])) = .ok s) :
    Below s.tokens.toList ((xs ++ ['\n']).count '\n') {} s ∧
      ∀ x ∈ s.tokens.toList, x.pos.line ≤ (xs ++ ['\n']).count '\n' := by
  obtain ⟨u, hrun, rfl⟩ := exists_endLine h
  have hempty : ({} : Scan).Above := fun x hx => absurd hx List.not_mem_nil
  obtain ⟨habove, hline⟩ := hempty.readPieces hrun
  have hcount : u.pos.line = (xs ++ ['\n']).count '\n' := by
    rw [hline, count_lineEnd_pieces, List.count_append, Nat.add_comm]
    rfl
  refine ⟨⟨?_, (List.append_nil _).symm, Nat.le_refl 1⟩, ?_⟩
  · rw [pos_endLine, Position.nextLine, hcount, Nat.add_comm]
    rfl
  · rw [← hcount]
    exact habove.endLine

end Scan

theorem endsInLineEnd_withLineEnd (source : String) :
    endsInLineEnd (withLineEnd source) = true := by
  unfold withLineEnd
  split
  · assumption
  · simp [endsInLineEnd]

/-- **A text below another one.**  The tokens of the first text are followed by those of the second
one, as many lines further down as the first text has line ends. -/
theorem scan_append {a b : String} (ha : endsInLineEnd a) {as bs : List Token}
    {posA posB : Position} (hA : (Token.scan a).result = .ok (as ++ [.endOfInput posA]))
    (hB : (Token.scan b).result = .ok (bs ++ [.endOfInput posB])) :
    (Token.scan (a ++ b)).result =
      .ok (as ++ bs.map (Token.below (a.toList.count '\n')) ++
        [.endOfInput (posB.below (a.toList.count '\n'))]) := by
  obtain ⟨xs, hxs⟩ := List.getLast?_eq_some_iff.1 (of_decide_eq_true ha)
  obtain ⟨s, hrunA, hA⟩ := exists_readPieces_of_scan hA
  obtain ⟨t, hrunB, hB⟩ := exists_readPieces_of_scan hB
  obtain ⟨rfl, -⟩ := List.append_inj' hA rfl
  obtain ⟨rfl, hpos⟩ := List.append_inj' hB rfl
  obtain rfl : posB = t.pos := congrArg Token.pos (List.cons.inj hpos).1
  have hpieces : pieces (a ++ b).toList = pieces a.toList ++ pieces b.toList := by
    rw [String.toList_append, hxs, List.append_assoc, List.singleton_append, pieces_append,
      pieces_append, pieces]
    simp
  rw [hxs] at hrunA
  obtain ⟨hbelow, hfront⟩ := Scan.below_of_lineEnd hrunA
  rw [← hxs] at hrunA hbelow hfront
  obtain ⟨u, hu, hlast⟩ := hbelow.readPieces hfront hrunB
  rw [result_scan, hpieces, Scan.readPieces_append, hrunA]
  show (Scan.readPieces s _).map _ = _
  rw [hu, ← hlast.tokens, ← hlast.pos]
  rfl

end MicroGo
