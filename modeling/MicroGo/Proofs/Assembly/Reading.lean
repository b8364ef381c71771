import Mathlib.Tactic.Common
import MicroGo.Program.Numeral
import MicroGo.Proofs.Assembly.Numbering

/-!
# Reading assembly

A text of assembly is read line by line.  A line that begins with two blanks is an instruction: a
mnemonic and operands between commas.  Another line is a label if it ends in a colon, and otherwise
a directive.  The reader knows nothing of the printer.  It goes by the form of the operands: a
register behind a percent sign, a number behind a dollar sign, a register in parentheses for the
word in memory that it points to, a distance from the frame pointer, and a symbol.

Not every listing can be read back from its text, since the name of a function may be any string.
If these names are symbols, the listing is read back (`read?_render`); and nothing else is read than
what the printer writes (`read?_eq_some_iff`).  So no two listings have the same text, and a text
that is misspelt in any place shows no listing at all.
-/

namespace MicroGo
namespace Assembly

/-! ## Numbers and symbols -/

/-- The number with the given decimal digits, of which the first one is not a needless zero. -/
def natural? (cs : List Char) : Option Nat :=
  (Numeral.digits? cs).filter fun n => Nat.toDigits 10 n = cs

/-- The number with the given decimal digits behind at most a minus sign. -/
def integer? : List Char → Option Int
  | '-' :: cs => ((natural? cs).filter fun n => 0 < n).map fun n : Nat => -(n : Int)
  | cs => (natural? cs).map fun n : Nat => (n : Int)

/-- A symbol is a letter or an underscore, and behind it letters, digits and underscores. -/
def isSymbol : List Char → Bool
  | [] => false
  | c :: cs => (c.isAlpha || c = '_') && cs.all fun d => d.isAlphanum || d = '_'

/-- The name that a symbol is. -/
def symbol? (cs : List Char) : Option String :=
  if isSymbol cs then some (String.ofList cs) else none

theorem isDigit_of_mem_toDigits {n : Nat} {c : Char} (h : c ∈ Nat.toDigits 10 n) : c.isDigit :=
  Nat.isDigit_of_mem_toDigits (by decide) (by decide) h

theorem natural?_eq_some_iff {cs : List Char} {n : Nat} :
    natural? cs = some n ↔ cs = Nat.toDigits 10 n := by
  rw [natural?, Option.filter_eq_some_iff, decide_eq_true_eq, eq_comm (a := Nat.toDigits 10 n)]
  refine ⟨And.right, fun h => ⟨?_, h⟩⟩
  have hdigits : cs.all Char.isDigit := by
    rw [h]
    exact List.all_eq_true.2 fun _ hc => isDigit_of_mem_toDigits hc
  rw [Numeral.digits?, if_pos ⟨h ▸ Nat.toDigits_ne_nil, hdigits⟩, h, Nat.ofDigitChars_ten_toDigits]

/-- A number is written with its digits, behind a minus sign if it is negative. -/
theorem toList_toString_cases (n : Int) :
    (∃ k : Nat, n = k ∧ (toString n).toList = Nat.toDigits 10 k) ∨
      ∃ k : Nat, 0 < k ∧ n = -k ∧ (toString n).toList = '-' :: Nat.toDigits 10 k := by
  rw [Int.toString_eq_repr, Int.repr_eq_if]
  by_cases hn : 0 ≤ n
  · rw [if_pos hn, Nat.repr_eq_ofList_toDigits, String.toList_ofList]
    exact .inl ⟨n.toNat, by omega, rfl⟩
  · rw [if_neg hn, Nat.repr_eq_ofList_toDigits, String.toList_append, String.toList_ofList,
      String.toList_ofList]
    exact .inr ⟨(-n).toNat, by omega, by omega, rfl⟩

/-- The digits of a number do not begin with a minus sign. -/
theorem toDigits_ne_minus (n : Nat) (cs : List Char) : Nat.toDigits 10 n ≠ '-' :: cs := by
  intro h
  have hdigit := isDigit_of_mem_toDigits (n := n) (h ▸ List.mem_cons_self)
  exact absurd hdigit (by decide)

theorem integer?_eq_some_iff {cs : List Char} {n : Int} :
    integer? cs = some n ↔ cs = (toString n).toList := by
  unfold integer?
  split
  next cs =>
    rw [Option.map_eq_some_iff]
    constructor
    · rintro ⟨k, hk, rfl⟩
      obtain ⟨hk, hpos⟩ := Option.filter_eq_some_iff.1 hk
      have hpos := of_decide_eq_true hpos
      rcases toList_toString_cases (-(k : Int)) with ⟨k', hk', -⟩ | ⟨k', -, hk', htext⟩
      · omega
      · obtain rfl : k = k' := by omega
        rw [htext, natural?_eq_some_iff.1 hk]
    · intro h
      rcases toList_toString_cases n with ⟨k, -, htext⟩ | ⟨k, hpos, rfl, htext⟩
      · exact absurd (h.trans htext).symm (toDigits_ne_minus k cs)
      · rw [htext, List.cons_inj_right] at h
        exact ⟨k, Option.filter_eq_some_iff.2 ⟨natural?_eq_some_iff.2 h, decide_eq_true hpos⟩, rfl⟩
  next hminus =>
    rw [Option.map_eq_some_iff]
    constructor
    · rintro ⟨k, hk, rfl⟩
      rcases toList_toString_cases (k : Int) with ⟨k', hk', htext⟩ | ⟨k', hpos, hk', -⟩
      · obtain rfl : k = k' := by omega
        rw [htext, natural?_eq_some_iff.1 hk]
      · omega
    · intro h
      rcases toList_toString_cases n with ⟨k, rfl, htext⟩ | ⟨k, -, -, htext⟩
      · exact ⟨k, natural?_eq_some_iff.2 (h.trans htext), rfl⟩
      · exact absurd (h.trans htext) (hminus _)

/-- A number is a word if it is the value of one. -/
theorem word?_eq_some_iff {n : Int} {value : Int64} :
    Numeral.word? n = some value ↔ n = value.toInt := by
  unfold Numeral.word?
  split
  next hrange =>
    rw [Option.some_inj]
    constructor
    · rintro rfl
      exact (Int64.toInt_ofInt_of_le hrange.1 (Int.lt_of_le_sub_one hrange.2)).symm
    · rintro rfl
      exact Int64.ofInt_toInt value
  next hrange =>
    refine ⟨fun h => (Option.some_ne_none value h.symm).elim, fun h => absurd ?_ hrange⟩
    rw [h]
    exact ⟨value.minValue_le_toInt, value.toInt_le⟩

theorem symbol?_eq_some_iff {cs : List Char} {name : String} :
    symbol? cs = some name ↔ cs = name.toList ∧ isSymbol name.toList := by
  unfold symbol?
  split
  next h =>
    rw [Option.some_inj]
    constructor
    · rintro rfl
      rw [String.toList_ofList]
      exact ⟨rfl, h⟩
    · rintro ⟨rfl, -⟩
      exact String.ofList_toList
  next h =>
    refine ⟨fun h => (Option.some_ne_none name h.symm).elim, ?_⟩
    rintro ⟨rfl, hsymbol⟩
    exact absurd hsymbol h

/-! ## Registers and labels -/

/-- The names of the registers. -/
def registers : List (String × Reg) :=
  [("%rax", .rax), ("%rbx", .rbx), ("%rcx", .rcx), ("%rdx", .rdx), ("%rdi", .rdi), ("%rsi", .rsi),
    ("%rbp", .rbp), ("%rsp", .rsp), ("%r8", .r8), ("%r9", .r9), ("%r12", .r12), ("%r13", .r13),
    ("%r14", .r14), ("%r15", .r15)]

/-- The register with the given name. -/
def Reg.read? (cs : List Char) : Option Reg :=
  registers.lookup (String.ofList cs)

theorem Reg.read?_eq_some_iff {cs : List Char} {r : Reg} :
    Reg.read? cs = some r ↔ cs = r.name.toList := by
  constructor
  · intro h
    obtain ⟨before, after, hsplit, -⟩ := List.lookup_eq_some_iff.1 h
    have hnames : ∀ entry ∈ registers, entry.1 = entry.2.name := by decide
    have hname := hnames (String.ofList cs, r) (by simp [hsplit])
    rw [← hname, String.toList_ofList]
  · rintro rfl
    rw [Reg.read?, String.ofList_toList]
    cases r <;> rfl

/-- What stands behind the given front. -/
def behind? (front : String) (cs : List Char) : Option (List Char) :=
  front.toList.isPrefixOf? cs

theorem behind?_eq_some_iff {front : String} {cs rest : List Char} :
    behind? front cs = some rest ↔ cs = front.toList ++ rest := by
  rw [behind?, List.isPrefixOf?_eq_some_iff_append_eq, eq_comm]

/-- The label with the given name.  The start of a function is a symbol, and the other labels say
what they are for in front of the function or the number. -/
def Label.read? (cs : List Char) : Option Label :=
  ((behind? ".L.return." cs).bind symbol?).map .exit <|>
    ((behind? ".L.begin." cs).bind natural?).map .begin <|>
    ((behind? ".L.else." cs).bind natural?).map .otherwise <|>
    ((behind? ".L.end." cs).bind natural?).map .done <|>
    (symbol? cs).map .entry

/-- The label can be read: the name of its function is a symbol. -/
def Label.Legible : Label → Prop
  | .entry function => isSymbol function.toList
  | .exit function => isSymbol function.toList
  | _ => True

theorem Label.eq_of_read? {cs : List Char} {l : Label} (h : Label.read? cs = some l) :
    cs = l.name.toList ∧ l.Legible := by
  simp only [Label.read?, Option.orElse_eq_some, Option.map_eq_some_iff, Option.bind_eq_some_iff,
    behind?_eq_some_iff, symbol?_eq_some_iff, natural?_eq_some_iff] at h
  rw [Label.toList_name]
  rcases h with ⟨f, ⟨_, rfl, rfl, hf⟩, rfl⟩ | ⟨-, h⟩
  · exact ⟨rfl, hf⟩
  rcases h with ⟨n, ⟨_, rfl, rfl⟩, rfl⟩ | ⟨-, h⟩
  · exact ⟨rfl, trivial⟩
  rcases h with ⟨n, ⟨_, rfl, rfl⟩, rfl⟩ | ⟨-, h⟩
  · exact ⟨rfl, trivial⟩
  rcases h with ⟨n, ⟨_, rfl, rfl⟩, rfl⟩ | ⟨-, f, ⟨rfl, hf⟩, rfl⟩
  · exact ⟨rfl, trivial⟩
  · exact ⟨rfl, hf⟩

theorem isSymbol_iff {cs : List Char} : isSymbol cs ↔
    ∃ c rest, cs = c :: rest ∧ (c.isAlpha || c = '_') ∧ ∀ d ∈ rest, d.isAlphanum || d = '_' := by
  cases cs with
  | nil => simp [isSymbol]
  | cons c rest => simp [isSymbol]

/-- All characters of a symbol are letters, digits and underscores. -/
theorem isAlphanum_of_isSymbol {cs : List Char} (h : isSymbol cs) :
    ∀ c ∈ cs, c.isAlphanum || c = '_' := by
  obtain ⟨c, rest, rfl, hc, hrest⟩ := isSymbol_iff.1 h
  refine List.forall_mem_cons.2 ⟨?_, hrest⟩
  rcases Bool.or_eq_true_iff.1 hc with hc | hc
  · rw [Char.isAlphanum, hc, Bool.true_or, Bool.true_or]
  · rw [hc, Bool.or_true]

theorem notMem_of_isSymbol {cs : List Char} (h : isSymbol cs) {c : Char}
    (hc : (c.isAlphanum || c = '_') = false) : c ∉ cs := fun hmem => by
  have hpart := isAlphanum_of_isSymbol h c hmem
  rw [hc] at hpart
  cases hpart

theorem Label.Legible.dotless {l : Label} (h : l.Legible) : l.Dotless := by
  cases l with
  | entry f => exact notMem_of_isSymbol h (by decide)
  | exit f | begin n | otherwise n | done n => trivial

/-- **A label is read from its name.** -/
theorem Label.read?_eq_some_iff {cs : List Char} {l : Label} :
    Label.read? cs = some l ↔ cs = l.name.toList ∧ l.Legible := by
  refine ⟨Label.eq_of_read?, ?_⟩
  rintro ⟨rfl, hl⟩
  -- something is read, and different labels have different names
  have hsome : Label.read? l.name.toList ≠ none := by
    simp only [Label.read?, Ne, Option.orElse_eq_none, Option.map_eq_none_iff]
    rintro ⟨hexit, hbegin, hotherwise, hdone, hentry⟩
    rw [Label.toList_name] at *
    have hnatural {front : String} {n : Nat} :
        (behind? front (front.toList ++ Nat.toDigits 10 n)).bind natural? ≠ none :=
      Option.ne_none_iff_exists'.2 ⟨n, Option.bind_eq_some_iff.2
        ⟨_, behind?_eq_some_iff.2 rfl, natural?_eq_some_iff.2 rfl⟩⟩
    cases l with
    | entry f => exact Option.ne_none_iff_exists'.2 ⟨f, symbol?_eq_some_iff.2 ⟨rfl, hl⟩⟩ hentry
    | exit f =>
      exact Option.ne_none_iff_exists'.2 ⟨f, Option.bind_eq_some_iff.2
        ⟨f.toList, behind?_eq_some_iff.2 rfl, symbol?_eq_some_iff.2 ⟨rfl, hl⟩⟩⟩ hexit
    | begin n => exact hnatural hbegin
    | otherwise n => exact hnatural hotherwise
    | done n => exact hnatural hdone
  obtain ⟨l', hl'⟩ := Option.ne_none_iff_exists'.1 hsome
  obtain ⟨hname, hlegible⟩ := Label.eq_of_read? hl'
  rw [hl', Label.name_inj hl.dotless hlegible.dotless (String.toList_inj.1 hname)]

/-! ## Separators -/

/-- Blanks, commas and line ends separate the parts of a text. -/
def isSeparator (c : Char) : Bool :=
  c = ' ' || c = ',' || c = '\n'

/-- There is no separator among the characters. -/
def isUnbroken (cs : List Char) : Bool :=
  cs.all fun c => !isSeparator c

theorem isUnbroken_append {cs ds : List Char} :
    isUnbroken (cs ++ ds) ↔ isUnbroken cs ∧ isUnbroken ds := by
  rw [isUnbroken, List.all_append, Bool.and_eq_true]
  rfl

theorem isUnbroken_cons {c : Char} {cs : List Char} :
    isUnbroken (c :: cs) ↔ !isSeparator c ∧ isUnbroken cs := by
  rw [isUnbroken, List.all_cons, Bool.and_eq_true]
  rfl

theorem notMem_of_isUnbroken {cs : List Char} {c : Char} (h : isUnbroken cs)
    (hc : isSeparator c) : c ∉ cs := fun hmem => by
  have hnot := List.all_eq_true.1 h c hmem
  rw [hc] at hnot
  cases hnot

theorem notMem_intercalate {c : Char} {sep : List Char} {pieces : List (List Char)}
    (hsep : c ∉ sep) (h : ∀ piece ∈ pieces, c ∉ piece) : c ∉ sep.intercalate pieces := by
  induction pieces with
  | nil => exact List.not_mem_nil
  | cons piece pieces ih =>
    obtain ⟨hpiece, hpieces⟩ := List.forall_mem_cons.1 h
    by_cases hnil : pieces = []
    · rw [hnil, List.intercalate_singleton]
      exact hpiece
    · rw [List.intercalate_cons_of_ne_nil hnil, List.mem_append, List.mem_append, not_or, not_or]
      exact ⟨⟨hpiece, hsep⟩, ih hpieces⟩

theorem isUnbroken_of_isAlphanum {cs : List Char} (h : ∀ c ∈ cs, c.isAlphanum || c = '_') :
    isUnbroken cs := by
  refine List.all_eq_true.2 fun c hc => ?_
  rw [Bool.not_eq_true', Bool.eq_false_iff]
  intro hsep
  have hpart := h c hc
  simp only [isSeparator, Bool.or_eq_true, decide_eq_true_eq] at hsep
  rcases hsep with (rfl | rfl) | rfl
  · exact absurd hpart (by decide)
  · exact absurd hpart (by decide)
  · exact absurd hpart (by decide)

theorem isUnbroken_toDigits (n : Nat) : isUnbroken (Nat.toDigits 10 n) := by
  refine isUnbroken_of_isAlphanum fun c hc => ?_
  rw [Char.isAlphanum, isDigit_of_mem_toDigits hc, Bool.or_true, Bool.true_or]

theorem isUnbroken_toString (n : Int) : isUnbroken (toString n).toList := by
  rcases toList_toString_cases n with ⟨k, -, htext⟩ | ⟨k, -, -, htext⟩
  · rw [htext]
    exact isUnbroken_toDigits k
  · rw [htext]
    exact isUnbroken_cons.2 ⟨by decide, isUnbroken_toDigits k⟩

theorem Label.isUnbroken_name {l : Label} (h : l.Legible) : isUnbroken l.name.toList := by
  rw [Label.toList_name]
  cases l with
  | entry f => exact isUnbroken_of_isAlphanum (isAlphanum_of_isSymbol h)
  | exit f =>
    exact isUnbroken_append.2 ⟨by decide, isUnbroken_of_isAlphanum (isAlphanum_of_isSymbol h)⟩
  | begin n | otherwise n | done n =>
    exact isUnbroken_append.2 ⟨by decide, isUnbroken_toDigits n⟩

theorem Reg.isUnbroken_name (r : Reg) : isUnbroken r.name.toList := by
  cases r <;> decide

/-! ## Operands -/

/-- The operands of an instruction by their form. -/
inductive Instr.Operand where
  /-- A register. -/
  | reg (r : Reg)
  /-- A number. -/
  | number (value : Int)
  /-- The word in memory that a register points to. -/
  | memory (address : Reg)
  /-- The word in memory that lies by some distance below the frame pointer. -/
  | slot (offset : Int)
  /-- A place in the code. -/
  | label (l : Label)
  /-- The low byte of `rax`. -/
  | lowByte
  /-- The low half of `rax`. -/
  | lowHalf

namespace Instr.Operand

/-- The characters of an operand. -/
def chars : Operand → List Char
  | reg r => r.name.toList
  | number value => '$' :: (toString value).toList
  | memory address => '(' :: (address.name.toList ++ [')'])
  | slot offset => (Assembly.slot offset).toList
  | label l => l.name.toList
  | lowByte => ['%', 'a', 'l']
  | lowHalf => ['%', 'e', 'a', 'x']

/-- The operand can be read. -/
def Legible : Operand → Prop
  | label l => l.Legible
  | _ => True

/-- The operand with the given characters, by the first one of them. -/
def read? (cs : List Char) : Option Operand :=
  match cs with
  | '%' :: name =>
      match name with
      | ['a', 'l'] => some lowByte
      | ['e', 'a', 'x'] => some lowHalf
      | _ => (Reg.read? cs).map reg
  | '$' :: digits => (integer? digits).map number
  | '(' :: rest =>
      if rest.getLast? = some ')' then (Reg.read? rest.dropLast).map memory else none
  | '-' :: rest =>
      if rest.dropWhile (· ≠ '(') = ['(', '%', 'r', 'b', 'p', ')'] then
        (integer? (rest.takeWhile (· ≠ '('))).map slot
      else none
  | _ => (Label.read? cs).map label

theorem chars_slot (offset : Int) : (slot offset).chars =
    '-' :: ((toString offset).toList ++ ['(', '%', 'r', 'b', 'p', ')']) := by
  show ("-" ++ toString offset ++ "(%rbp)").toList = _
  rw [String.toList_append, String.toList_append]
  rfl

theorem eq_of_read? {cs : List Char} {o : Operand} (h : read? cs = some o) :
    cs = o.chars ∧ o.Legible := by
  unfold read? at h
  split at h
  next name =>
    split at h
    next =>
      cases h
      exact ⟨rfl, trivial⟩
    next =>
      cases h
      exact ⟨rfl, trivial⟩
    next =>
      obtain ⟨r, hr, rfl⟩ := Option.map_eq_some_iff.1 h
      exact ⟨Reg.read?_eq_some_iff.1 hr, trivial⟩
  next digits =>
    obtain ⟨value, hvalue, rfl⟩ := Option.map_eq_some_iff.1 h
    rw [integer?_eq_some_iff.1 hvalue]
    exact ⟨rfl, trivial⟩
  next rest =>
    split at h
    next hclose =>
      obtain ⟨r, hr, rfl⟩ := Option.map_eq_some_iff.1 h
      rw [← List.dropLast_append_getLast? ')' hclose, Reg.read?_eq_some_iff.1 hr]
      exact ⟨rfl, trivial⟩
    next => cases h
  next rest =>
    split at h
    next hclose =>
      obtain ⟨offset, hoffset, rfl⟩ := Option.map_eq_some_iff.1 h
      rw [chars_slot, ← integer?_eq_some_iff.1 hoffset, ← hclose, List.takeWhile_append_dropWhile]
      exact ⟨rfl, trivial⟩
    next => cases h
  next =>
    obtain ⟨l, hl, rfl⟩ := Option.map_eq_some_iff.1 h
    exact Label.read?_eq_some_iff.1 hl

/-- The first character of a label that can be read. -/
theorem exists_head_of_legible {l : Label} (h : l.Legible) :
    ∃ c rest, l.name.toList = c :: rest ∧ (c.isAlpha || c = '_' || c = '.') := by
  rw [Label.toList_name]
  cases l with
  | entry f =>
    obtain ⟨c, rest, hf, hc, -⟩ := isSymbol_iff.1 h
    exact ⟨c, rest, hf, Bool.or_eq_true_iff.2 (.inl hc)⟩
  | exit f | begin n | otherwise n | done n => exact ⟨'.', _, rfl, rfl⟩

/-- The digits of a number are in front of the parenthesis. -/
theorem paren_notMem_toString (n : Int) : ∀ c ∈ (toString n).toList, decide (c ≠ '(') := by
  intro c hc
  rw [decide_eq_true_eq]
  rintro rfl
  rcases toList_toString_cases n with ⟨k, -, htext⟩ | ⟨k, -, -, htext⟩
  · rw [htext] at hc
    exact absurd (isDigit_of_mem_toDigits hc) (by decide)
  · rw [htext, List.mem_cons] at hc
    rcases hc with hc | hc
    · exact absurd hc (by decide)
    · exact absurd (isDigit_of_mem_toDigits hc) (by decide)

/-- **An operand is read from its characters.** -/
theorem read?_eq_some_iff {cs : List Char} {o : Operand} :
    read? cs = some o ↔ cs = o.chars ∧ o.Legible := by
  refine ⟨eq_of_read?, ?_⟩
  rintro ⟨rfl, ho⟩
  cases o with
  | reg r => cases r <;> rfl
  | number value => exact Option.map_eq_some_iff.2 ⟨value, integer?_eq_some_iff.2 rfl, rfl⟩
  | memory address =>
    rw [chars, read?, if_pos (List.getLast?_concat ..), List.dropLast_concat,
      Reg.read?_eq_some_iff.2 rfl]
    rfl
  | slot offset =>
    rw [chars_slot, read?, List.dropWhile_append_of_pos (paren_notMem_toString offset),
      List.takeWhile_append_of_pos (paren_notMem_toString offset)]
    refine (if_pos rfl).trans (Option.map_eq_some_iff.2 ⟨offset, ?_, rfl⟩)
    exact integer?_eq_some_iff.2 (List.append_nil _)
  | label l =>
    obtain ⟨c, rest, hname, hc⟩ := exists_head_of_legible ho
    have hread : (Label.read? l.name.toList).map label = some (label l) :=
      Option.map_eq_some_iff.2 ⟨l, Label.read?_eq_some_iff.2 ⟨rfl, ho⟩, rfl⟩
    rw [chars, hname] at *
    unfold read?
    split
    -- a label does not begin like one of the other operands
    next heq => rw [(List.cons.inj heq).1] at hc; exact absurd hc (by decide)
    next heq => rw [(List.cons.inj heq).1] at hc; exact absurd hc (by decide)
    next heq => rw [(List.cons.inj heq).1] at hc; exact absurd hc (by decide)
    next heq => rw [(List.cons.inj heq).1] at hc; exact absurd hc (by decide)
    next => exact hread
  | lowByte => rfl
  | lowHalf => rfl

/-- Separators stand between operands and not in them. -/
theorem isUnbroken_chars {o : Operand} (h : o.Legible) : isUnbroken o.chars := by
  cases o with
  | reg r => exact r.isUnbroken_name
  | number value => exact isUnbroken_cons.2 ⟨by decide, isUnbroken_toString value⟩
  | memory address =>
    exact isUnbroken_cons.2
      ⟨by decide, isUnbroken_append.2 ⟨address.isUnbroken_name, by decide⟩⟩
  | slot offset =>
    rw [chars_slot]
    exact isUnbroken_cons.2
      ⟨by decide, isUnbroken_append.2 ⟨isUnbroken_toString offset, by decide⟩⟩
  | label l => exact l.isUnbroken_name h
  | lowByte => decide
  | lowHalf => decide

theorem notMem_piece {o : Operand} (h : o.Legible) {c : Char} (hc : isSeparator c)
    (hblank : c ≠ ' ') : c ∉ ' ' :: o.chars := by
  rw [List.mem_cons, not_or]
  exact ⟨hblank, notMem_of_isUnbroken (isUnbroken_chars h) hc⟩

end Instr.Operand

/-! ## Instructions -/

namespace Instr

/-- The instruction with a mnemonic and operands, by the form of the operands. -/
def ofParts? (mnemonic : String) : List Operand → Option Instr
  | [] =>
      match mnemonic with
      | "cqo" => some signExtend
      | "ret" => some ret
      | _ => none
  | [.reg r] =>
      match mnemonic with
      | "push" => some (push r)
      | "pop" => some (pop r)
      | "idiv" => some (div r)
      | _ => none
  | [.reg src, .reg dst] =>
      match mnemonic with
      | "mov" => some (move src dst)
      | "add" => some (add src dst)
      | "sub" => some (sub src dst)
      | "imul" => some (mul src dst)
      | "cmp" => some (compare src dst)
      | _ => none
  | [.number value, .reg dst] =>
      match mnemonic with
      | "mov" => (Numeral.word? value).map (moveWord · dst)
      | "add" => some (addWord value dst)
      | "sub" => some (subWord value dst)
      | "cmp" => (Numeral.word? value).map (compareWord · dst)
      | _ => none
  | [.memory address, .reg dst] =>
      match mnemonic with
      | "mov" => some (load address dst)
      | _ => none
  | [.reg src, .memory address] =>
      match mnemonic with
      | "mov" => some (store src address)
      | _ => none
  | [.reg src, .slot offset] =>
      match mnemonic with
      | "mov" => some (storeSlot src offset)
      | _ => none
  | [.slot offset, .reg dst] =>
      match mnemonic with
      | "lea" => some (slotAddress offset dst)
      | _ => none
  | [.label l] =>
      match mnemonic, l with
      | "jmp", l => some (jump l)
      | "je", l => some (jumpEqual l)
      | "call", .entry callee => some (call callee)
      | _, _ => none
  | [.lowByte] =>
      match mnemonic with
      | "sete" => some (setByte .equal)
      | "setne" => some (setByte .notEqual)
      | "setl" => some (setByte .less)
      | "setle" => some (setByte .lessOrEqual)
      | _ => none
  | [.lowByte, .lowHalf] =>
      match mnemonic with
      | "movzbl" => some extendByte
      | _ => none
  | _ => none

/-- The mnemonic and the operands of an instruction. -/
def parts : Instr → String × List Operand
  | push src => ("push", [.reg src])
  | pop dst => ("pop", [.reg dst])
  | move src dst => ("mov", [.reg src, .reg dst])
  | moveWord value dst => ("mov", [.number value.toInt, .reg dst])
  | load address dst => ("mov", [.memory address, .reg dst])
  | store src address => ("mov", [.reg src, .memory address])
  | storeSlot src offset => ("mov", [.reg src, .slot offset])
  | slotAddress offset dst => ("lea", [.slot offset, .reg dst])
  | add src dst => ("add", [.reg src, .reg dst])
  | sub src dst => ("sub", [.reg src, .reg dst])
  | mul src dst => ("imul", [.reg src, .reg dst])
  | addWord value dst => ("add", [.number value, .reg dst])
  | subWord value dst => ("sub", [.number value, .reg dst])
  | signExtend => ("cqo", [])
  | div src => ("idiv", [.reg src])
  | compare src dst => ("cmp", [.reg src, .reg dst])
  | compareWord value dst => ("cmp", [.number value.toInt, .reg dst])
  | setByte condition => (condition.name, [.lowByte])
  | extendByte => ("movzbl", [.lowByte, .lowHalf])
  | jump target => ("jmp", [.label target])
  | jumpEqual target => ("je", [.label target])
  | call callee => ("call", [.label (.entry callee)])
  | ret => ("ret", [])

theorem parts_of_ofParts? {mnemonic : String} {os : List Operand} {i : Instr}
    (h : ofParts? mnemonic os = some i) : i.parts = (mnemonic, os) := by
  unfold ofParts? at h
  split at h
  case h_4 value dst =>
    split at h
    · obtain ⟨word, hword, rfl⟩ := Option.map_eq_some_iff.1 h
      rw [word?_eq_some_iff.1 hword]
      rfl
    · cases h
      rfl
    · cases h
      rfl
    · obtain ⟨word, hword, rfl⟩ := Option.map_eq_some_iff.1 h
      rw [word?_eq_some_iff.1 hword]
      rfl
    · cases h
  case h_12 => cases h
  -- where no number is read, the form and the mnemonic say it all
  all_goals
    split at h <;> cases h <;> rfl

theorem ofParts?_parts (i : Instr) : ofParts? i.parts.1 i.parts.2 = some i := by
  cases i with
  | moveWord value dst =>
    exact Option.map_eq_some_iff.2 ⟨value, word?_eq_some_iff.2 rfl, rfl⟩
  | compareWord value dst =>
    exact Option.map_eq_some_iff.2 ⟨value, word?_eq_some_iff.2 rfl, rfl⟩
  | setByte condition => cases condition <;> rfl
  | _ => rfl

/-- The instruction can be read. -/
def Legible (i : Instr) : Prop :=
  ∀ o ∈ i.parts.2, o.Legible

/-- The operands in the given pieces of a text, each of which stands behind a blank. -/
def operands? : List (List Char) → Option (List Operand)
  | [] => some []
  | (' ' :: cs) :: pieces => do return (← Operand.read? cs) :: (← operands? pieces)
  | _ :: _ => none

/-- The instruction with the given characters: the mnemonic is what stands in front of the first
blank, and operands are separated by commas. -/
def read? (cs : List Char) : Option Instr := do
  let behind := cs.dropWhile (· ≠ ' ')
  ofParts? (String.ofList (cs.takeWhile (· ≠ ' ')))
    (← operands? (if behind = [] then [] else behind.splitOn ','))

theorem operands?_eq_some_iff {pieces : List (List Char)} {os : List Operand} :
    operands? pieces = some os ↔
      pieces = (os.map fun o => ' ' :: o.chars) ∧ ∀ o ∈ os, o.Legible := by
  induction pieces generalizing os with
  | nil =>
    rw [operands?, Option.some_inj, eq_comm (a := [])]
    constructor
    · rintro rfl
      exact ⟨rfl, List.forall_mem_nil _⟩
    · exact fun h => List.map_eq_nil_iff.1 h.1.symm
  | cons piece pieces ih =>
    unfold operands?
    split
    next heq => cases heq
    next cs rest heq =>
      obtain ⟨rfl, rfl⟩ := List.cons.inj heq
      simp only [bind, Option.bind_eq_some_iff, pure, Option.some_inj,
        Operand.read?_eq_some_iff, ih]
      constructor
      · rintro ⟨o, ⟨rfl, ho⟩, os, ⟨rfl, hos⟩, rfl⟩
        exact ⟨rfl, List.forall_mem_cons.2 ⟨ho, hos⟩⟩
      · rintro ⟨hpieces, hos⟩
        cases os with
        | nil => cases hpieces
        | cons o os =>
          obtain ⟨ho, hos⟩ := List.forall_mem_cons.1 hos
          cases hpieces
          exact ⟨o, ⟨rfl, ho⟩, os, ⟨rfl, hos⟩, rfl⟩
    next hblank heq =>
      refine ⟨fun h => (Option.some_ne_none os h.symm).elim, ?_⟩
      rintro ⟨hpieces, -⟩
      cases os with
      | nil => cases hpieces
      | cons o os => exact (hblank o.chars (List.cons.inj (heq.symm.trans hpieces)).1).elim

/-- An instruction is its mnemonic, and behind it its operands with commas between them. -/
theorem toList_render (i : Instr) : i.render.toList =
    i.parts.1.toList ++ [','].intercalate (i.parts.2.map fun o => ' ' :: o.chars) := by
  cases i with
  | call callee => simp [render, parts, Operand.chars, Label.name, toString, List.intercalate]
  | _ => simp [render, parts, Operand.chars, toString, List.intercalate]

section

variable (os : List Operand)

/-- Where operands are, there is a blank in front of them. -/
theorem operands_cases :
    os = [] ∨ ∃ rest, [','].intercalate (os.map fun o => ' ' :: o.chars) = ' ' :: rest := by
  cases os with
  | nil => exact .inl rfl
  | cons o os => cases os <;> exact .inr ⟨_, rfl⟩

theorem takeWhile_operands :
    ([','].intercalate (os.map fun o => ' ' :: o.chars)).takeWhile (· ≠ ' ') = [] := by
  rcases operands_cases os with rfl | ⟨rest, hrest⟩
  · rfl
  · rw [hrest]
    rfl

theorem dropWhile_operands :
    ([','].intercalate (os.map fun o => ' ' :: o.chars)).dropWhile (· ≠ ' ') =
      [','].intercalate (os.map fun o => ' ' :: o.chars) := by
  rcases operands_cases os with rfl | ⟨rest, hrest⟩
  · rfl
  · rw [hrest]
    rfl

/-- The commas stand between the operands. -/
theorem pieces_operands (h : ∀ o ∈ os, o.Legible) :
    (if [','].intercalate (os.map fun o => ' ' :: o.chars) = [] then []
      else ([','].intercalate (os.map fun o => ' ' :: o.chars)).splitOn ',') =
      os.map fun o => ' ' :: o.chars := by
  split
  next hnil =>
    rcases operands_cases os with rfl | ⟨rest, hrest⟩
    · rfl
    · exact absurd (hrest.symm.trans hnil) (List.cons_ne_nil ' ' rest)
  next hne =>
    refine List.splitOn_intercalate ',' (fun piece hpiece => ?_) ?_
    · obtain ⟨o, ho, rfl⟩ := List.mem_map.1 hpiece
      exact Operand.notMem_piece (h o ho) (by decide) (by decide)
    · intro hnil
      rw [hnil] at hne
      exact hne rfl

end

/-- A mnemonic is made of letters. -/
theorem isAlpha_mnemonic (i : Instr) : i.parts.1.toList.all Char.isAlpha := by
  cases i with
  | setByte condition => cases condition <;> simp [parts, Condition.name]
  | _ => simp [parts]

theorem eq_of_read? {cs : List Char} {i : Instr} (h : read? cs = some i) :
    cs = i.render.toList ∧ i.Legible := by
  obtain ⟨os, hos, hparts⟩ := Option.bind_eq_some_iff.1 h
  obtain ⟨hpieces, hlegible⟩ := operands?_eq_some_iff.1 hos
  have hi := parts_of_ofParts? hparts
  have hbehind : cs.dropWhile (· ≠ ' ') = [','].intercalate (os.map fun o => ' ' :: o.chars) := by
    rw [← hpieces]
    split
    next hnil => exact hnil
    next => exact (List.intercalate_splitOn ',').symm
  refine ⟨?_, ?_⟩
  · rw [toList_render, hi, String.toList_ofList, ← hbehind, List.takeWhile_append_dropWhile]
  · rw [Legible, hi]
    exact hlegible

/-- **An instruction is read from its text.** -/
theorem read?_eq_some_iff {cs : List Char} {i : Instr} :
    read? cs = some i ↔ cs = i.render.toList ∧ i.Legible := by
  refine ⟨eq_of_read?, ?_⟩
  rintro ⟨rfl, hi⟩
  have hread := operands?_eq_some_iff.2 ⟨rfl, hi⟩
  have hfront : ∀ c ∈ i.parts.1.toList, decide (c ≠ ' ') := fun c hc => decide_eq_true (by
    rintro rfl
    exact absurd (List.all_eq_true.1 i.isAlpha_mnemonic _ hc) (by decide))
  rw [read?, toList_render, List.takeWhile_append_of_pos hfront,
    List.dropWhile_append_of_pos hfront, takeWhile_operands, dropWhile_operands, List.append_nil,
    String.ofList_toList]
  rw [pieces_operands i.parts.2 hi, hread]
  exact i.ofParts?_parts

end Instr

/-! ## Lines -/

namespace Line

/-- The directive with the given characters. -/
def directive? (cs : List Char) : Option Line :=
  if cs = ".att_syntax prefix".toList then some operandStyle
  else if cs = ".text".toList then some codeSection
  else ((behind? ".globl " cs).bind symbol?).map global

/-- The line with the given characters. -/
def read? (cs : List Char) : Option Line :=
  match cs with
  | ' ' :: ' ' :: rest => (Instr.read? rest).map instr
  | _ => if cs.getLast? = some ':' then (Label.read? cs.dropLast).map label else directive? cs

/-- The line can be read: the names of functions in it are symbols. -/
def Legible : Line → Prop
  | global function => isSymbol function.toList
  | label l => l.Legible
  | instr i => i.Legible
  | _ => True

theorem toList_render_global (function : String) :
    (global function).render.toList = ".globl ".toList ++ function.toList := by
  simp [render, toString]

theorem toList_render_label (l : Label) :
    (label l).render.toList = l.name.toList ++ [':'] := by
  simp [render, toString]

theorem toList_render_instr (i : Instr) :
    (instr i).render.toList = ' ' :: ' ' :: i.render.toList := by
  simp [render, toString]

theorem eq_of_read? {cs : List Char} {line : Line} (h : read? cs = some line) :
    cs = line.render.toList ∧ line.Legible := by
  unfold read? at h
  split at h
  next rest =>
    obtain ⟨i, hi, rfl⟩ := Option.map_eq_some_iff.1 h
    obtain ⟨rfl, hlegible⟩ := Instr.read?_eq_some_iff.1 hi
    exact ⟨(toList_render_instr i).symm, hlegible⟩
  next =>
    split at h
    next hcolon =>
      obtain ⟨l, hl, rfl⟩ := Option.map_eq_some_iff.1 h
      obtain ⟨hname, hlegible⟩ := Label.read?_eq_some_iff.1 hl
      rw [toList_render_label, ← hname, List.dropLast_append_getLast? ':' hcolon]
      exact ⟨rfl, hlegible⟩
    next =>
      unfold directive? at h
      split at h
      next hstyle =>
        cases h
        exact ⟨hstyle, trivial⟩
      next =>
        split at h
        next hsection =>
          cases h
          exact ⟨hsection, trivial⟩
        next =>
          obtain ⟨f, hf, rfl⟩ := Option.map_eq_some_iff.1 h
          obtain ⟨name, hname, hf⟩ := Option.bind_eq_some_iff.1 hf
          obtain ⟨rfl, hlegible⟩ := symbol?_eq_some_iff.1 hf
          rw [toList_render_global]
          exact ⟨behind?_eq_some_iff.1 hname, hlegible⟩

theorem directive?_global {f : String} (h : isSymbol f.toList) :
    directive? (".globl ".toList ++ f.toList) = some (global f) := by
  rw [directive?, if_neg (by simp), if_neg (by simp), behind?_eq_some_iff.2 rfl,
    Option.bind_some, symbol?_eq_some_iff.2 ⟨rfl, h⟩]
  rfl

/-- A line that does not begin with two blanks is no instruction. -/
theorem read?_of_head {c : Char} {cs : List Char} (hc : c ≠ ' ') :
    read? (c :: cs) = if (c :: cs).getLast? = some ':' then
      (Label.read? (c :: cs).dropLast).map label else directive? (c :: cs) := by
  unfold read?
  split
  next heq => exact absurd (List.cons.inj heq).1 hc
  next => rfl

/-- **A line is read from its text.** -/
theorem read?_eq_some_iff {cs : List Char} {line : Line} :
    read? cs = some line ↔ cs = line.render.toList ∧ line.Legible := by
  refine ⟨eq_of_read?, ?_⟩
  rintro ⟨rfl, hline⟩
  cases line with
  | operandStyle => rfl
  | codeSection => rfl
  | global f =>
    have hlast : (".globl ".toList ++ f.toList).getLast? ≠ some ':' := by
      intro hcolon
      obtain ⟨c, rest, hf, -⟩ := isSymbol_iff.1 hline
      rw [List.getLast?_append_of_ne_nil _ (by rw [hf]; exact List.cons_ne_nil c rest)] at hcolon
      exact notMem_of_isSymbol hline (by decide) (List.mem_of_getLast? hcolon)
    rw [toList_render_global]
    exact (read?_of_head (by decide)).trans ((if_neg hlast).trans (directive?_global hline))
  | label l =>
    obtain ⟨c, rest, hname, hc⟩ := Instr.Operand.exists_head_of_legible hline
    have hne : c ≠ ' ' := by
      rintro rfl
      exact absurd hc (by decide)
    rw [toList_render_label, hname, List.cons_append, read?_of_head hne, ← List.cons_append,
      ← hname, if_pos List.getLast?_concat, List.dropLast_concat, Label.read?_eq_some_iff.2 ⟨rfl, hline⟩]
    rfl
  | instr i =>
    rw [toList_render_instr]
    exact Option.map_eq_some_iff.2 ⟨i, Instr.read?_eq_some_iff.2 ⟨rfl, hline⟩, rfl⟩

/-- A line that can be read has no line end in it. -/
theorem lineEnd_notMem_render {line : Line} (h : line.Legible) : '\n' ∉ line.render.toList := by
  cases line with
  | operandStyle => decide
  | codeSection => decide
  | global f =>
    rw [toList_render_global, List.mem_append, not_or]
    exact ⟨by decide, notMem_of_isSymbol h (by decide)⟩
  | label l =>
    rw [toList_render_label, List.mem_append, not_or]
    exact ⟨notMem_of_isUnbroken (l.isUnbroken_name h) (by decide), by decide⟩
  | instr i =>
    rw [toList_render_instr, Instr.toList_render, List.mem_cons, List.mem_cons, List.mem_append]
    rintro (hc | hc | hc | hc)
    · exact absurd hc (by decide)
    · exact absurd hc (by decide)
    · exact absurd (List.all_eq_true.1 i.isAlpha_mnemonic _ hc) (by decide)
    · refine notMem_intercalate (by decide) (fun piece hpiece => ?_) hc
      obtain ⟨o, ho, rfl⟩ := List.mem_map.1 hpiece
      exact Instr.Operand.notMem_piece (h o ho) (by decide) (by decide)

end Line

/-! ## Texts -/

/-- The lines in the given pieces of a text, of which the last one is empty. -/
def lines? : List (List Char) → Option (List Line)
  | [] => none
  | [last] => if last = [] then some [] else none
  | piece :: next :: pieces => do return (← Line.read? piece) :: (← lines? (next :: pieces))

/-- **The listing that a text shows.**  Each line of the text ends in a line end. -/
def read? (text : String) : Option (List Line) :=
  lines? (text.toList.splitOn '\n')

theorem toList_render_cons (line : Line) (lines : List Line) :
    (render (line :: lines)).toList = line.render.toList ++ '\n' :: (render lines).toList := by
  simp [render, String.toList_join]

/-- A listing whose names are symbols is read back from its text. -/
theorem read?_render {lines : List Line} (h : ∀ line ∈ lines, line.Legible) :
    read? (render lines) = some lines := by
  induction lines with
  | nil => rfl
  | cons line lines ih =>
    obtain ⟨hline, hlines⟩ := List.forall_mem_cons.1 h
    have hread := ih hlines
    unfold read? at hread ⊢
    rw [toList_render_cons,
      List.splitOn_append_cons_self_of_not_mem (Line.lineEnd_notMem_render hline)]
    obtain ⟨next, pieces, hpieces⟩ :=
      List.exists_cons_of_ne_nil (List.splitOn_ne_nil '\n' (render lines).toList)
    rw [hpieces] at hread ⊢
    rw [lines?, Line.read?_eq_some_iff.2 ⟨rfl, hline⟩, hread]
    rfl

theorem intercalate_of_lines? {pieces : List (List Char)} {lines : List Line}
    (h : lines? pieces = some lines) :
    ['\n'].intercalate pieces = (render lines).toList ∧ ∀ line ∈ lines, line.Legible := by
  induction pieces using lines?.induct generalizing lines with
  | case1 => cases h
  | case2 =>
    cases h
    exact ⟨rfl, List.forall_mem_nil _⟩
  | case3 last hlast =>
    rw [lines?, if_neg hlast] at h
    cases h
  | case4 piece next pieces ih =>
    rw [lines?] at h
    obtain ⟨line, hline, h⟩ := Option.bind_eq_some_iff.1 h
    obtain ⟨below, hbelow, h⟩ := Option.bind_eq_some_iff.1 h
    obtain rfl : line :: below = lines := Option.some.inj h
    obtain ⟨hpiece, hlegible⟩ := Line.read?_eq_some_iff.1 hline
    obtain ⟨htext, hall⟩ := ih hbelow
    rw [List.intercalate_cons_cons, htext, hpiece, toList_render_cons, List.append_assoc]
    exact ⟨rfl, List.forall_mem_cons.2 ⟨hlegible, hall⟩⟩

/-- **What is read from a text is the listing whose text it is.** -/
theorem read?_eq_some_iff {text : String} {lines : List Line} :
    read? text = some lines ↔ text = render lines ∧ ∀ line ∈ lines, line.Legible := by
  constructor
  · intro h
    obtain ⟨htext, hlegible⟩ := intercalate_of_lines? h
    rw [List.intercalate_splitOn] at htext
    exact ⟨String.toList_inj.1 htext, hlegible⟩
  · rintro ⟨rfl, h⟩
    exact read?_render h

end Assembly
end MicroGo
