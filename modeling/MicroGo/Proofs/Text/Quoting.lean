import Mathlib.Data.List.Basic
import Mathlib.Tactic.Common
import MicroGo.Text.Quoted

/-!
# Quoted texts can be read

A text between quotes shows its characters: `unescape` takes the first of them off, and finds none
at the closing quote.  So a quoted text tells where it ends and what it quotes, whatever stands behind
it (`quoted_append_inj`, `quotedChar_append_inj`).
-/

namespace MicroGo
namespace Text

/-! ## Numbers -/

/-- The value of a hexadecimal digit. -/
def digitValue (c : Char) : Nat :=
  if c.isDigit then c.toNat - '0'.toNat else c.toNat - 'a'.toNat + 10

/-- The value of hexadecimal digits. -/
def hexadecimal (digits : List Char) : Nat :=
  digits.foldl (fun n c => 16 * n + digitValue c) 0

theorem digitChar_spec : ∀ d < 16, digitValue d.digitChar = d ∧ d.digitChar ≠ '\x7d' := by
  decide

theorem hexadecimal_toDigits (n : Nat) :
    hexadecimal (Nat.toDigits 16 n) = n ∧ '\x7d' ∉ Nat.toDigits 16 n := by
  induction n using Nat.strongRecOn with
  | ind n ih =>
    rw [Nat.toDigits_eq_if (by decide)]
    split
    next hlt =>
      obtain ⟨hvalue, hne⟩ := digitChar_spec n hlt
      exact ⟨(Nat.zero_add _).trans hvalue, by simp [hne.symm]⟩
    next hle =>
      obtain ⟨hvalue, hne⟩ := digitChar_spec (n % 16) (Nat.mod_lt _ (by decide))
      obtain ⟨ihvalue, ihne⟩ := ih (n / 16) (by omega)
      refine ⟨?_, by simp [ihne, hne.symm]⟩
      rw [hexadecimal, List.foldl_append]
      show 16 * hexadecimal (Nat.toDigits 16 (n / 16)) + digitValue _ = n
      rw [ihvalue, hvalue]
      exact Nat.div_add_mod n 16

/-! ## Single characters -/

/-- The character that a letter behind a backslash stands for. -/
def ofLetter (letter : Char) : Char :=
  if letter = '0' then '\x00'
  else if letter = 't' then '\t'
  else if letter = 'r' then '\r'
  else if letter = 'n' then '\n'
  else letter

/-- The first character that is quoted, and what stands behind it.  There is none at a `quote`. -/
def unescape (quote : Char) : List Char → Option (Char × List Char)
  | [] => none
  | c :: rest =>
      if c = quote then none
      else if c = '\\' then
        match rest with
        | [] => none
        | letter :: rest =>
            if letter = 'u' then
              some (Char.ofNat (hexadecimal (rest.tail.takeWhile (· != '\x7d'))),
                (rest.tail.dropWhile (· != '\x7d')).tail)
            else some (ofLetter letter, rest)
      else some (c, rest)

/-- A quote is neither the backslash nor a letter that may stand behind one. -/
def IsQuote (quote : Char) : Prop :=
  quote ∉ ['\\', '0', 't', 'r', 'n', 'u']

instance (quote : Char) : Decidable (IsQuote quote) :=
  inferInstanceAs (Decidable (_ ∉ _))

variable {quote : Char}

theorem unescape_quote (quote : Char) (rest : List Char) : unescape quote (quote :: rest) = none :=
  if_pos rfl

theorem unescape_letter (hquote : IsQuote quote) {letter : Char} (hletter : letter ≠ 'u')
    (rest : List Char) :
    unescape quote ('\\' :: letter :: rest) = some (ofLetter letter, rest) := by
  have hne : '\\' ≠ quote := fun h => hquote (h ▸ List.mem_cons_self)
  rw [unescape, if_neg hne, if_pos rfl]
  exact if_neg hletter

theorem unescape_numbered (hquote : IsQuote quote) (c : Char) (rest : List Char) :
    unescape quote ((numbered c).toList ++ rest) = some (c, rest) := by
  have hne : '\\' ≠ quote := fun h => hquote (h ▸ List.mem_cons_self)
  obtain ⟨hvalue, hdigits⟩ := hexadecimal_toDigits c.toNat
  have hall : ∀ d ∈ Nat.toDigits 16 c.toNat, (d != '\x7d') = true :=
    fun d hd => bne_iff_ne.2 fun h => hdigits (h ▸ hd)
  have htext : (numbered c).toList ++ rest =
      '\\' :: 'u' :: '\x7b' :: (Nat.toDigits 16 c.toNat ++ '\x7d' :: rest) := by
    simp [numbered]
  rw [htext, unescape, if_neg hne, if_pos rfl]
  show some (Char.ofNat (hexadecimal (List.takeWhile _ (_ ++ _))),
    (List.dropWhile _ (_ ++ _)).tail) = _
  rw [List.takeWhile_append_of_pos hall, List.dropWhile_append_of_pos hall,
    List.takeWhile_cons_of_neg (by decide), List.dropWhile_cons_of_neg (by decide),
    List.append_nil, hvalue, Char.ofNat_toNat]
  rfl

/-- What is written for a character is read as this character. -/
theorem unescape_escaped (hquote : IsQuote quote) (c : Char) (rest : List Char) :
    unescape quote ((escaped quote c).toList ++ rest) = some (c, rest) := by
  have hletter : ∀ letter, letter ≠ 'u' → ofLetter letter = c →
      unescape quote (['\\', letter] ++ rest) = some (c, rest) :=
    fun letter hu hc => hc ▸ unescape_letter hquote hu rest
  unfold escaped
  split_ifs with hnul htab hreturn hline hself hhidden
  · exact hletter '0' (by decide) (hnul ▸ rfl)
  · exact hletter 't' (by decide) (htab ▸ rfl)
  · exact hletter 'r' (by decide) (hreturn ▸ rfl)
  · exact hletter 'n' (by decide) (hline ▸ rfl)
  · rw [String.toList_ofList]
    have hplain : c ∉ ['0', 't', 'r', 'n', 'u'] := by
      rcases Bool.or_eq_true_iff.1 hself with h | h
      · exact of_decide_eq_true h ▸ fun hmem => hquote (List.mem_cons_of_mem _ hmem)
      · exact of_decide_eq_true h ▸ by decide
    refine hletter c (fun h => hplain (by simp [h])) ?_
    simp only [List.mem_cons, List.not_mem_nil, or_false, not_or] at hplain
    simp [ofLetter, hplain]
  · exact unescape_numbered hquote c rest
  · simp only [Bool.or_eq_true, decide_eq_true_eq, not_or] at hself
    rw [Char.toString_eq_singleton, String.toList_singleton, List.singleton_append]
    exact (if_neg hself.1).trans (if_neg hself.2)

/-! ## Texts -/

/-- The characters of a text as they are written between quotes. -/
theorem flatMap_escaped_inj (hquote : IsQuote quote) {cs ds xs ys : List Char}
    (h : cs.flatMap (fun c => (escaped quote c).toList) ++ quote :: xs =
      ds.flatMap (fun c => (escaped quote c).toList) ++ quote :: ys) : cs = ds ∧ xs = ys := by
  induction cs generalizing ds with
  | nil =>
    cases ds with
    | nil => exact ⟨rfl, (List.cons.inj h).2⟩
    | cons d ds =>
      have hread := congrArg (unescape quote) h
      rw [List.flatMap_cons, List.append_assoc, unescape_escaped hquote] at hread
      cases (unescape_quote quote xs).symm.trans hread
  | cons c cs ih =>
    have hread := congrArg (unescape quote) h
    rw [List.flatMap_cons, List.append_assoc, unescape_escaped hquote] at hread
    cases ds with
    | nil => cases hread.trans (unescape_quote quote ys)
    | cons d ds =>
      rw [List.flatMap_cons, List.append_assoc, unescape_escaped hquote] at hread
      obtain ⟨rfl, hrest⟩ := Prod.mk.inj (Option.some.inj hread)
      obtain ⟨rfl, hbehind⟩ := ih hrest
      exact ⟨rfl, hbehind⟩

/-- Characters between quotes. -/
theorem between_quotes_inj (hquote : IsQuote quote) {cs ds xs ys : List Char}
    (h : quote :: (cs.flatMap (fun c => (escaped quote c).toList) ++ [quote]) ++ xs =
      quote :: (ds.flatMap (fun c => (escaped quote c).toList) ++ [quote]) ++ ys) :
    cs = ds ∧ xs = ys := by
  simp only [List.cons_append, List.append_assoc, List.nil_append, List.cons.injEq, true_and] at h
  exact flatMap_escaped_inj hquote h

theorem toList_quoted (text : String) : (quoted text).toList =
    '\x22' :: (text.toList.flatMap (fun c => (escaped '\x22' c).toList) ++ ['\x22']) := by
  simp [quoted, String.toList_join, List.flatMap_map]

theorem toList_quotedChar (c : Char) : (quotedChar c).toList =
    '\x27' :: ([c].flatMap (fun c => (escaped '\x27' c).toList) ++ ['\x27']) := by
  simp [quotedChar]

/-- **A quoted text tells what it quotes** and where it ends. -/
theorem quoted_append_inj {s t : String} {xs ys : List Char}
    (h : (quoted s).toList ++ xs = (quoted t).toList ++ ys) : s = t ∧ xs = ys := by
  rw [toList_quoted, toList_quoted] at h
  obtain ⟨htext, hbehind⟩ := between_quotes_inj (by decide) h
  exact ⟨String.toList_inj.1 htext, hbehind⟩

/-- **A quoted character tells which one it is** and where it ends. -/
theorem quotedChar_append_inj {c d : Char} {xs ys : List Char}
    (h : (quotedChar c).toList ++ xs = (quotedChar d).toList ++ ys) : c = d ∧ xs = ys := by
  rw [toList_quotedChar, toList_quotedChar] at h
  obtain ⟨hchar, hbehind⟩ := between_quotes_inj (by decide) h
  exact ⟨(List.cons.inj hchar).1, hbehind⟩

theorem quotedChar_injective : Function.Injective quotedChar :=
  fun _ _ h => (quotedChar_append_inj (congrArg (·.toList ++ []) h)).1

end Text
end MicroGo
