import Mathlib.Data.List.Forall2
import MicroGo.Command.Run
import MicroGo.Proofs.Text.Quoting

/-!
# The token table

A line of the table has the place of a token, its kind and its text in quotes, with tabs between
them (`IsTokenRow`).  The table shows the tokens completely: different lists of tokens have
different tables (`tokenTable_injective`).  This is so because numbers hold neither colons nor tabs,
and because a quoted text tells where it ends.
-/

namespace MicroGo
namespace Command

/-- A line of the token table. -/
def IsTokenRow (t : Token) (row : String) : Prop :=
  ∃ word, (t.kind, word) ∈
      [(Lexeme.Kind.reserved, "Reserved"), (.ident, "Ident"), (.num, "Num"), (.eof, "Eof")] ∧
    row = toString t.pos.line ++ ":" ++ toString t.pos.column ++ "\t" ++ word ++ "\t" ++
      Text.quoted t.text ++ "\n"

theorem isTokenRow_tokenRow (t : Token) : IsTokenRow t (tokenRow t) := by
  refine ⟨kindWord t.kind, ?_, rfl⟩
  cases t.kind <;> decide

theorem forall₂_tokenRow (tokens : List Token) :
    List.Forall₂ IsTokenRow tokens (tokens.map tokenRow) :=
  List.forall₂_map_right_iff.2 (List.forall₂_same.2 fun t _ => isTokenRow_tokenRow t)

/-! ## The table shows the tokens -/

/-- A list in front of a mark that it does not hold. -/
theorem append_cons_inj {α : Type} {x : α} {as bs xs ys : List α} (ha : x ∉ as) (hb : x ∉ bs)
    (h : as ++ x :: xs = bs ++ x :: ys) : as = bs ∧ xs = ys := by
  induction as generalizing bs with
  | nil =>
    cases bs with
    | nil => exact ⟨rfl, (List.cons.inj h).2⟩
    | cons b bs => exact absurd (List.mem_cons.2 (.inl (List.cons.inj h).1)) hb
  | cons a as ih =>
    cases bs with
    | nil => exact absurd (List.mem_cons.2 (.inl (List.cons.inj h).1.symm)) ha
    | cons b bs =>
      obtain ⟨rfl, hrest⟩ := List.cons.inj h
      obtain ⟨rfl, hbehind⟩ := ih (fun hx => ha (List.mem_cons_of_mem _ hx))
        (fun hx => hb (List.mem_cons_of_mem _ hx)) hrest
      exact ⟨rfl, hbehind⟩

/-- A number in front of a mark that is not a digit. -/
theorem toDigits_append_cons_inj {x : Char} (hx : x.isDigit = false) {n k : Nat}
    {xs ys : List Char} (h : Nat.toDigits 10 n ++ x :: xs = Nat.toDigits 10 k ++ x :: ys) :
    n = k ∧ xs = ys := by
  have hnot : ∀ n, x ∉ Nat.toDigits 10 n := fun n hmem =>
    absurd (Nat.isDigit_of_mem_toDigits (by decide) (by decide) hmem) (Bool.eq_false_iff.1 hx)
  obtain ⟨hdigits, hbehind⟩ := append_cons_inj (hnot n) (hnot k) h
  have hvalue := congrArg (Nat.ofDigitChars 10 · 0) hdigits
  rw [Nat.ofDigitChars_ten_toDigits, Nat.ofDigitChars_ten_toDigits] at hvalue
  exact ⟨hvalue, hbehind⟩

theorem toList_tokenRow (t : Token) : (tokenRow t).toList =
    Nat.toDigits 10 t.pos.line ++ ':' :: (Nat.toDigits 10 t.pos.column ++
      '\t' :: ((kindWord t.kind).toList ++ '\t' :: ((Text.quoted t.text).toList ++ ['\n']))) := by
  have hrow : tokenRow t = toString t.pos.line ++ ":" ++ toString t.pos.column ++ "\t" ++
      kindWord t.kind ++ "\t" ++ Text.quoted t.text ++ "\n" := rfl
  rw [hrow]
  simp [Nat.toList_repr]

theorem toList_tokenRow_ne_nil (t : Token) : (tokenRow t).toList ≠ [] := by
  simp [toList_tokenRow]

theorem tab_notMem_kindWord (kind : Lexeme.Kind) : '\t' ∉ (kindWord kind).toList := by
  cases kind <;> decide

theorem kindWord_injective : Function.Injective kindWord := by
  intro kind kind'
  cases kind <;> cases kind' <;> decide

/-- A line of the table tells which token it shows, and where it ends. -/
theorem tokenRow_append_inj {t u : Token} {xs ys : List Char}
    (h : (tokenRow t).toList ++ xs = (tokenRow u).toList ++ ys) : t = u ∧ xs = ys := by
  simp only [toList_tokenRow, List.append_assoc, List.cons_append] at h
  obtain ⟨hline, h⟩ := toDigits_append_cons_inj rfl h
  obtain ⟨hcolumn, h⟩ := toDigits_append_cons_inj rfl h
  obtain ⟨hword, h⟩ := append_cons_inj (tab_notMem_kindWord _) (tab_notMem_kindWord _) h
  obtain ⟨htext, h⟩ := Text.quoted_append_inj h
  refine ⟨?_, (List.cons.inj h).2⟩
  obtain ⟨⟨kind, text⟩, ⟨line, column⟩⟩ := t
  obtain ⟨⟨kind', text'⟩, ⟨line', column'⟩⟩ := u
  obtain rfl : kind = kind' := kindWord_injective (String.toList_inj.1 hword)
  obtain rfl : line = line' := hline
  obtain rfl : column = column' := hcolumn
  obtain rfl : text = text' := htext
  rfl

/-- **The table shows the tokens.**  Different lists of tokens have different tables. -/
theorem tokenTable_injective :
    Function.Injective fun tokens : List Token => String.join (tokens.map tokenRow) := by
  intro ts us h
  have hchars : (ts.map tokenRow).flatMap String.toList = (us.map tokenRow).flatMap String.toList :=
    String.toList_join ▸ String.toList_join ▸ congrArg String.toList h
  clear h
  induction ts generalizing us with
  | nil =>
    cases us with
    | nil => rfl
    | cons u us => exact absurd (List.append_eq_nil_iff.1 hchars.symm).1 (toList_tokenRow_ne_nil u)
  | cons t ts ih =>
    cases us with
    | nil => exact absurd (List.append_eq_nil_iff.1 hchars).1 (toList_tokenRow_ne_nil t)
    | cons u us =>
      obtain ⟨rfl, hrest⟩ := tokenRow_append_inj hchars
      rw [ih hrest]

end Command
end MicroGo
