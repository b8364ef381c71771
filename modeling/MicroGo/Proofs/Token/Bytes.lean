import MicroGo.Proofs.Token.Partition

/-!
# Reading bytes

A text is stored in UTF-8, and a reader may go over its bytes, with an index that it moves on by one
byte or by a run of bytes, and take slices of the text between two indices.  Such a reader is safe
only if it never takes a slice that begins or ends within a character.  Nothing in the index itself
rules that out: a comment is passed byte by byte, whatever characters are in it.

`Bytes.scan` is this reader, with slices that fail within characters (`slice?`).  It does not fail
on any text, and finds the same tokens as the reading of pieces (`scan_eq`).

The reason is that all bytes of a character outside of ASCII are outside of ASCII (`isByte_other`).
So the bytes at which a run ends are the first bytes of characters, and the index that a round
leaves behind is again one between two characters (`round_eq`).
-/

namespace MicroGo
namespace Bytes

open Position (byteCount)

/-! ## The reader -/

/-- A reading of bytes ends with a complaint or a result.  There is no answer at all if a slice
would cut a character. -/
abbrev Reading := ExceptT Failure Option

/-- The bytes of a text. -/
def bytesOf (source : String) : List UInt8 :=
  source.toByteArray.data.toList

/-- The byte with an index. -/
def byteAt? (source : String) (i : Nat) : Option UInt8 :=
  (bytesOf source)[i]?

/-- The part of a text from byte `i` to byte `j`.  There is none if it would begin or end within a
character. -/
def slice? (source : String) (i j : Nat) : Option String :=
  if h : (⟨i⟩ : String.Pos.Raw).IsValid source ∧ (⟨j⟩ : String.Pos.Raw).IsValid source ∧ i ≤ j then
    some (source.extract ⟨⟨i⟩, h.1⟩ ⟨⟨j⟩, h.2.1⟩)
  else none

/-- The byte is the code of an ASCII character of a class. -/
def isByte (p : Char → Bool) (b : UInt8) : Bool :=
  b < 128 && p (Char.ofNat b.toNat)

/-- Moves on by `n` bytes of the line. -/
def moveOn (n : Nat) (s : Scan) : Scan :=
  { s with pos := ⟨s.pos.line, s.pos.column + n⟩ }

/-- Takes a lexeme of `n` bytes. -/
def take (lexeme : Lexeme) (n : Nat) (s : Scan) : Scan :=
  { moveOn n s with tokens := s.tokens.push ⟨lexeme, s.pos⟩ }

/-- The number of bytes of one class from byte `i` on. -/
def runLength (source : String) (i : Nat) (p : UInt8 → Bool) : Nat :=
  (((bytesOf source).drop i).takeWhile p).length

/-- Takes the `n` bytes from byte `i` on as a lexeme. -/
def takeSlice (source : String) (i n : Nat) (lexeme : String → Lexeme) (s : Scan) :
    Reading (Nat × Scan) := do
  let text ← slice? source i (i + n)
  return (i + n, take (lexeme text) n s)

/-- The sign of two characters at the front of a text. -/
def sign? (rest : String) : Option String :=
  ["==", "!=", "<=", ">="].find? fun sign => sign.toList <+: rest.toList

/-- Reads a lexeme from byte `i` on, which is `b` and begins the text `rest`. -/
def readLexeme (source : String) (i : Nat) (b : UInt8) (rest : String) (s : Scan) :
    Reading (Nat × Scan) :=
  if isByte Char.isDigit b then
    takeSlice source i (runLength source i (isByte Char.isDigit)) (⟨.num, ·⟩) s
  else if isByte Piece.isWordStart b then
    takeSlice source i (runLength source i (isByte Piece.isWordPart)) .ofWord s
  else match sign? rest with
    | some sign => return (i + 2, take (.reserved sign) 2 s)
    | none =>
        if isByte Piece.isPunctuation b then takeSlice source i 1 .reserved s
        else throw ⟨.foreignCharacter (rest.toList.headD '\x00'), s.pos⟩

/-- Reads on from byte `i`, and gives the index of the next byte to read. -/
def round (source : String) (i : Nat) (s : Scan) : Reading (Nat × Scan) := do
  let b ← byteAt? source i
  if isByte Piece.isBlank b then return (i + 1, moveOn 1 s)
  else if isByte (· = '\n') b then return (i + 1, s.endLine)
  else
    let rest ← slice? source i source.utf8ByteSize
    if ['/', '/'] <+: rest.toList then
      let n := runLength source i fun b => !isByte (· = '\n') b
      return (i + n, moveOn n s)
    else readLexeme source i b rest s

/-- Reads on from byte `i` to the end of the text, in at most `budget` rounds. -/
def rounds (source : String) : (budget i : Nat) → Scan → Reading Scan
  | 0, i, s => if i < source.utf8ByteSize then none else return s
  | budget + 1, i, s =>
      if i < source.utf8ByteSize then do
        let next ← round source i s
        rounds source budget next.1 next.2
      else return s

/-- **The tokens of a text, read byte by byte.** -/
def scan (source : String) : Reading (List Token) := do
  let s ← rounds source source.utf8ByteSize 0 {}
  return s.tokens.toList ++ [.endOfInput s.pos]

/-! ## Bytes of characters -/

/-- The bytes of characters. -/
def encode (text : List Char) : List UInt8 :=
  text.flatMap String.utf8EncodeChar

theorem bytesOf_eq (source : String) : bytesOf source = encode source.toList := by
  rw [bytesOf, ← String.utf8Encode_toList, List.utf8Encode, List.data_toByteArray]
  rfl

theorem encode_append (xs ys : List Char) : encode (xs ++ ys) = encode xs ++ encode ys :=
  List.flatMap_append

theorem encode_cons (c : Char) (cs : List Char) :
    encode (c :: cs) = String.utf8EncodeChar c ++ encode cs :=
  List.flatMap_cons

theorem length_encode (text : List Char) : (encode text).length = byteCount text := by
  induction text with
  | nil => rfl
  | cons c cs ih =>
    rw [encode_cons, List.length_append, String.length_utf8EncodeChar, ih]
    rfl

theorem utf8ByteSize_ofList (text : List Char) :
    (String.ofList text).utf8ByteSize = byteCount text := by
  rw [← length_encode, ← String.size_toByteArray, String.toByteArray_ofList, List.utf8Encode,
    List.size_toByteArray]
  rfl

section

variable {p : Char → Bool} {c : Char}

/-- A character of ASCII is its own byte. -/
theorem utf8EncodeChar_ascii (hc : c.toNat < 128) :
    String.utf8EncodeChar c = [UInt8.ofNat c.toNat] := by
  unfold String.utf8EncodeChar
  exact if_pos (Nat.le_of_lt_succ hc)

theorem utf8Size_ascii (hc : c.toNat < 128) : c.utf8Size = 1 := by
  rw [← String.length_utf8EncodeChar, utf8EncodeChar_ascii hc, List.length_singleton]

theorem isByte_ascii (hc : c.toNat < 128) : isByte p (UInt8.ofNat c.toNat) = p c := by
  have hnat : (UInt8.ofNat c.toNat).toNat = c.toNat :=
    UInt8.toNat_ofNat_of_lt' (Nat.lt_trans hc (by decide))
  have hlt : UInt8.ofNat c.toNat < 128 := by
    rw [UInt8.lt_iff_toNat_lt, hnat]
    exact hc
  rw [isByte, hnat, Char.ofNat_toNat, decide_eq_true hlt, Bool.true_and]

/-- **No byte of another character is a byte of ASCII.** -/
theorem isByte_other (hc : 128 ≤ c.toNat) : ∀ b ∈ String.utf8EncodeChar c, isByte p b = false := by
  -- the bytes of all longer codes have their highest bit set
  have hhigh (n : Nat) (hn : 128 ≤ n % 256) : isByte p (UInt8.ofNat n) = false := by
    have hge : ¬UInt8.ofNat n < 128 := by
      rw [UInt8.lt_iff_toNat_lt, UInt8.toNat_ofNat']
      exact Nat.not_lt.2 hn
    rw [isByte, decide_eq_false hge, Bool.false_and]
  have hsmall : ¬c.val.toNat ≤ 127 := Nat.not_le.2 hc
  unfold String.utf8EncodeChar
  dsimp only
  rw [if_neg hsmall]
  intro b hb
  split at hb
  · simp only [List.mem_cons, List.not_mem_nil, or_false] at hb
    rcases hb with rfl | rfl <;> exact hhigh _ (by omega)
  split at hb
  · simp only [List.mem_cons, List.not_mem_nil, or_false] at hb
    rcases hb with rfl | rfl | rfl <;> exact hhigh _ (by omega)
  · simp only [List.mem_cons, List.not_mem_nil, or_false] at hb
    rcases hb with rfl | rfl | rfl | rfl <;> exact hhigh _ (by omega)

/-- The class is one of ASCII characters. -/
def IsAscii (p : Char → Bool) : Prop :=
  ∀ c, p c → c.toNat < 128

/-- What the first byte of a character shows. -/
theorem isByte_head (hp : IsAscii p) {b : UInt8} {bs : List UInt8}
    (hb : String.utf8EncodeChar c = b :: bs) : isByte p b = p c := by
  by_cases hc : c.toNat < 128
  · rw [utf8EncodeChar_ascii hc] at hb
    rw [← (List.cons.inj hb).1, isByte_ascii hc]
  · have hp' : p c = false := Bool.eq_false_iff.2 fun h => hc (hp c h)
    rw [hp', isByte_other (Nat.not_lt.1 hc) b (by rw [hb]; exact List.mem_cons_self)]

/-- A run of bytes is a run of characters, if the class of bytes holds of all bytes of a character
or not even of the first. -/
theorem takeWhile_encode {q : UInt8 → Bool}
    (hpos : ∀ c, p c → ∀ b ∈ String.utf8EncodeChar c, q b)
    (hneg : ∀ c b bs, p c = false → String.utf8EncodeChar c = b :: bs → q b = false)
    (text : List Char) : (encode text).takeWhile q = encode (text.takeWhile p) := by
  induction text with
  | nil => rfl
  | cons c cs ih =>
    rw [encode_cons]
    by_cases hc : p c
    · rw [List.takeWhile_cons_of_pos hc, List.takeWhile_append_of_pos (hpos c hc), ih, encode_cons]
    · have hc' : p c = false := Bool.eq_false_iff.2 hc
      obtain ⟨b, bs, hb⟩ := List.exists_cons_of_ne_nil (String.utf8EncodeChar_ne_nil (c := c))
      rw [List.takeWhile_cons_of_neg hc, hb, List.cons_append,
        List.takeWhile_cons_of_neg (by simp [hneg c b bs hc' hb])]
      rfl

theorem takeWhile_encode_ascii (hp : IsAscii p) (text : List Char) :
    (encode text).takeWhile (isByte p) = encode (text.takeWhile p) := by
  refine takeWhile_encode (fun c hc b hb => ?_) (fun c b bs hc hb => ?_) text
  · rw [utf8EncodeChar_ascii (hp c hc), List.mem_singleton] at hb
    rw [hb, isByte_ascii (hp c hc), hc]
  · rw [isByte_head hp hb, hc]

theorem isAscii_lineEnd : IsAscii (· = '\n') := by
  intro c hc
  rw [of_decide_eq_true hc]
  decide

theorem isAscii_of_prints {p : Char → Bool} (h : ∀ c, p c → '!' ≤ c ∧ c ≤ '~') : IsAscii p := by
  intro c hc
  have hle : c.toNat ≤ '~'.toNat := (h c hc).2
  exact Nat.lt_of_le_of_lt hle (by decide)

theorem isAscii_blank : IsAscii Piece.isBlank := by
  intro c hc
  simp only [Piece.isBlank, Bool.or_eq_true, decide_eq_true_eq] at hc
  rcases hc with (rfl | rfl) | rfl <;> decide

theorem isAscii_digit : IsAscii Char.isDigit :=
  isAscii_of_prints fun _ => Piece.prints_of_isDigit

theorem isAscii_wordPart : IsAscii Piece.isWordPart :=
  isAscii_of_prints fun _ => Piece.prints_of_isWordPart

theorem isAscii_wordStart : IsAscii Piece.isWordStart :=
  fun c hc => isAscii_wordPart c (Piece.isWordPart_of_isWordStart hc)

theorem isAscii_punctuation : IsAscii Piece.isPunctuation :=
  isAscii_of_prints fun _ => Piece.prints_of_isPunctuation

/-- No byte of another character is that of a line end. -/
theorem takeWhile_encode_line (text : List Char) :
    (encode text).takeWhile (fun b => !isByte (· = '\n') b) =
      encode (text.takeWhile (· ≠ '\n')) := by
  refine takeWhile_encode (fun c hc b hb => ?_) (fun c b bs hc hb => ?_) text
  · by_cases hascii : c.toNat < 128
    · rw [utf8EncodeChar_ascii hascii, List.mem_singleton] at hb
      rw [hb, isByte_ascii hascii]
      simpa using hc
    · rw [isByte_other (Nat.not_lt.1 hascii) b hb, Bool.not_false]
  · rw [isByte_head isAscii_lineEnd hb]
    simpa using hc

end

/-! ## Slices between characters -/

section

variable {source : String} {front text back : List Char}

theorem isValid_byteCount (h : source.toList = front ++ back) :
    (⟨byteCount front⟩ : String.Pos.Raw).IsValid source := by
  refine String.Pos.Raw.isValid_iff_exists_append.2
    ⟨String.ofList front, String.ofList back, ?_, ?_⟩
  · rw [← String.ofList_append, ← h, String.ofList_toList]
  · rw [← utf8ByteSize_ofList]
    rfl

/-- **A slice between two characters is there**, and is what stands between them. -/
theorem slice?_eq (h : source.toList = front ++ (text ++ back)) :
    slice? source (byteCount front) (byteCount front + byteCount text) =
      some (String.ofList text) := by
  have hend : (⟨byteCount front + byteCount text⟩ : String.Pos.Raw).IsValid source := by
    rw [← Position.byteCount_append]
    exact isValid_byteCount (by rw [h, List.append_assoc])
  rw [slice?, dif_pos ⟨isValid_byteCount h, hend, Nat.le_add_right _ _⟩]
  congr 1
  have hsize (cs : List Char) : byteCount cs = cs.utf8Encode.size := by
    rw [← utf8ByteSize_ofList, ← String.size_toByteArray, String.toByteArray_ofList]
  apply String.toByteArray_inj.1
  rw [String.toByteArray_extract, String.toByteArray_ofList, ← String.utf8Encode_toList, h,
    List.utf8Encode_append, List.utf8Encode_append]
  show ByteArray.extract _ (byteCount front + 0) (byteCount front + byteCount text) = _
  rw [hsize front, ByteArray.extract_append_size_add,
    ByteArray.extract_append_eq_left (hsize text)]

theorem utf8ByteSize_eq (h : source.toList = front ++ back) :
    source.utf8ByteSize = byteCount front + byteCount back := by
  rw [← Position.byteCount_append, ← h, ← utf8ByteSize_ofList, String.ofList_toList]

theorem slice?_rest (h : source.toList = front ++ back) :
    slice? source (byteCount front) source.utf8ByteSize = some (String.ofList back) := by
  have hback : source.toList = front ++ (back ++ []) := by rw [List.append_nil, h]
  rw [utf8ByteSize_eq h, slice?_eq hback]

theorem drop_bytesOf (h : source.toList = front ++ back) :
    (bytesOf source).drop (byteCount front) = encode back := by
  rw [bytesOf_eq, h, encode_append, ← length_encode, List.drop_left]

end

/-! ## One round -/

theorem bind_some {α β : Type} (a : α) (f : α → Reading β) :
    (liftM (some a) : Reading α) >>= f = f a :=
  rfl

section

variable {source : String} {front cs : List Char} {c : Char} {b : UInt8} {bs : List UInt8}
  {s : Scan}

theorem byteAt?_eq (h : source.toList = front ++ c :: cs) (hb : String.utf8EncodeChar c = b :: bs) :
    byteAt? source (byteCount front) = some b := by
  rw [byteAt?, ← List.head?_drop, drop_bytesOf h, encode_cons, hb]
  rfl

theorem byteCount_concat (hc : c.toNat < 128) : byteCount (front ++ [c]) = byteCount front + 1 := by
  rw [Position.byteCount_append]
  show byteCount front + (c.utf8Size + 0) = _
  rw [utf8Size_ascii hc]

/-- Blanks are passed one by one. -/
theorem round_blank (h : source.toList = front ++ c :: cs) (hc : Piece.isBlank c) :
    round source (byteCount front) s = some (.ok (byteCount (front ++ [c]), s.skip [c])) := by
  obtain ⟨b, bs, hb⟩ := List.exists_cons_of_ne_nil (String.utf8EncodeChar_ne_nil (c := c))
  have hsize : byteCount ([] ++ [c]) = byteCount [] + 1 := byteCount_concat (isAscii_blank c hc)
  unfold round
  rw [byteAt?_eq h hb, bind_some, isByte_head isAscii_blank hb, if_pos hc,
    byteCount_concat (isAscii_blank c hc)]
  show some (Except.ok (byteCount front + 1, moveOn (byteCount [] + 1) s)) = _
  rw [← hsize]
  rfl

/-- The bytes of a lexeme are taken as its characters. -/
theorem takeSlice_eq {text back : List Char} (h : source.toList = front ++ (text ++ back))
    (lexeme : String → Lexeme) :
    takeSlice source (byteCount front) (byteCount text) lexeme s =
      some (.ok (byteCount (front ++ text),
        take (lexeme (String.ofList text)) (byteCount text) s)) := by
  rw [takeSlice, slice?_eq h, bind_some, Position.byteCount_append]
  rfl

theorem pair_prefix_iff {d e : Char} : [d, e] <+: c :: cs ↔ c = d ∧ cs.head? = some e := by
  rw [List.cons_prefix_cons, eq_comm]
  cases cs with
  | nil => simp
  | cons x xs => simp [List.cons_prefix_cons, eq_comm]

/-- A sign of two characters is found if its two characters stand at the front. -/
theorem sign?_eq (c : Char) (cs : List Char) :
    sign? (String.ofList (c :: cs)) =
      if Piece.beginsEquals c && cs.head? = some '=' then some (String.ofList [c, '='])
      else none := by
  have hsigns : ["==", "!=", "<=", ">="] =
      ['=', '!', '<', '>'].map fun d => String.ofList [d, '='] := by decide
  have hfront : ((fun sign => decide (sign.toList <+: (String.ofList (c :: cs)).toList)) ∘
      fun d => String.ofList [d, '=']) = fun d => decide (c = d) && cs.head? = some '=' := by
    funext d
    simp only [Function.comp_apply, String.toList_ofList, pair_prefix_iff, Bool.decide_and]
  unfold sign?
  rw [hsigns, List.find?_map, hfront]
  by_cases hhead : cs.head? = some '='
  · by_cases hc : Piece.beginsEquals c
    · simp only [Piece.beginsEquals, Bool.or_eq_true, decide_eq_true_eq] at hc
      rcases hc with ((rfl | rfl) | rfl) | rfl <;> simp [hhead, Piece.beginsEquals]
    · have hne := hc
      simp only [Piece.beginsEquals, Bool.or_eq_true, decide_eq_true_eq, not_or] at hne
      simp [hne, hc]
  · simp [hhead]

/-- A run of bytes is as long as the run of characters. -/
theorem runLength_eq (h : source.toList = front ++ c :: cs) {p : Char → Bool} {q : UInt8 → Bool}
    (hq : ∀ text, (encode text).takeWhile q = encode (text.takeWhile p)) (hc : p c) :
    runLength source (byteCount front) q = byteCount (Piece.run p c cs).1 := by
  rw [runLength, drop_bytesOf h, hq, length_encode, List.takeWhile_cons_of_pos hc]
  rfl

/-- What comes of reading a piece behind `front`: the index behind the piece, and the state. -/
def readPiece (front : List Char) (s : Scan) (p : Piece) : Reading (Nat × Scan) :=
  some ((s.next? p).map fun t => (byteCount (front ++ p.chars), t))

theorem readPiece_lexeme {l : Lexeme} {text : List Char} (htext : l.text.toList = text) :
    readPiece front s (.lexeme l) =
      some (.ok (byteCount (front ++ text), take l (byteCount text) s)) := by
  subst htext
  rfl

theorem readPiece_ofChars (kind : Lexeme.Kind) (text : List Char) :
    readPiece front s (.ofChars kind text) =
      some (.ok (byteCount (front ++ text),
        take ⟨kind, String.ofList text⟩ (byteCount text) s)) :=
  readPiece_lexeme String.toList_ofList

/-- What is cut off from a text as a run is taken as a slice of it. -/
theorem takeSlice_run (h : source.toList = front ++ c :: cs) {p : Char → Bool} (hp : IsAscii p)
    (hc : p c) {lexeme : String → Lexeme} (hlexeme : ∀ text, (lexeme text).text = text) :
    takeSlice source (byteCount front) (runLength source (byteCount front) (isByte p)) lexeme s =
      readPiece front s (.lexeme (lexeme (String.ofList (Piece.run p c cs).1))) := by
  have hslice : source.toList = front ++ ((Piece.run p c cs).1 ++ (Piece.run p c cs).2) := by
    rw [h, Piece.chars_run]
  rw [runLength_eq h (takeWhile_encode_ascii hp) hc, takeSlice_eq hslice,
    readPiece_lexeme (by rw [hlexeme, String.toList_ofList])]

/-- **A lexeme is read as the first piece of what is left.** -/
theorem readLexeme_eq (h : source.toList = front ++ c :: cs)
    (hb : String.utf8EncodeChar c = b :: bs) (hblank : ¬Piece.isBlank c) (hline : c ≠ '\n')
    (hslashes : ¬(c = '/' && cs.head? = some '/') = true) :
    readLexeme source (byteCount front) b (String.ofList (c :: cs)) s =
      readPiece front s (Piece.split c cs).1 := by
  unfold readLexeme
  rw [isByte_head isAscii_digit hb, isByte_head isAscii_wordStart hb,
    isByte_head isAscii_punctuation hb, sign?_eq, Piece.split, if_neg hblank, if_neg hline,
    if_neg hslashes]
  by_cases hdigit : c.isDigit
  · rw [if_pos hdigit, if_pos hdigit, takeSlice_run h isAscii_digit hdigit fun _ => rfl]
    rfl
  rw [if_neg hdigit, if_neg hdigit]
  by_cases hstart : Piece.isWordStart c
  · rw [if_pos hstart, if_pos hstart,
      takeSlice_run h isAscii_wordPart (Piece.isWordPart_of_isWordStart hstart) Lexeme.text_ofWord]
  rw [if_neg hstart, if_neg hstart]
  by_cases hequals : (Piece.beginsEquals c && cs.head? = some '=') = true
  · have hc : c.toNat < 128 :=
      isAscii_of_prints (fun _ => Piece.prints_of_beginsEquals) c (Bool.and_eq_true_iff.1 hequals).1
    have hsize : byteCount [c, '='] = 2 := by
      show c.utf8Size + 1 = 2
      rw [utf8Size_ascii hc]
    rw [if_pos hequals, if_pos hequals, readPiece_ofChars, Position.byteCount_append,
      hsize]
    rfl
  rw [if_neg hequals, if_neg hequals]
  by_cases hsign : Piece.isPunctuation c
  · have hsize : byteCount [c] = 1 := utf8Size_ascii (isAscii_punctuation c hsign)
    have hslice : source.toList = front ++ ([c] ++ cs) := h
    have htake := takeSlice_eq (s := s) hslice .reserved
    rw [hsize] at htake
    rw [if_pos hsign, if_pos hsign, readPiece_ofChars, hsize]
    exact htake
  · rw [if_neg hsign, if_neg hsign, String.toList_ofList]
    rfl

/-- **A round reads the first piece of what is left**, and stops between two characters. -/
theorem round_eq (h : source.toList = front ++ c :: cs) (hblank : ¬Piece.isBlank c) :
    round source (byteCount front) s = readPiece front s (Piece.split c cs).1 := by
  obtain ⟨b, bs, hb⟩ := List.exists_cons_of_ne_nil (String.utf8EncodeChar_ne_nil (c := c))
  unfold round
  rw [byteAt?_eq h hb, bind_some, isByte_head isAscii_blank hb, if_neg hblank,
    isByte_head isAscii_lineEnd hb]
  by_cases hline : c = '\n'
  · subst hline
    have hsize : byteCount (front ++ ['\n']) = byteCount front + 1 := byteCount_concat (by decide)
    rw [if_pos (decide_eq_true rfl), ← hsize, Piece.split, if_neg hblank, if_pos rfl]
    rfl
  rw [if_neg (by simpa using hline), slice?_rest h, bind_some, String.toList_ofList]
  by_cases hslashes : (c = '/' && cs.head? = some '/') = true
  · have hprefix : ['/', '/'] <+: c :: cs := pair_prefix_iff.2 (by simpa using hslashes)
    rw [if_pos hprefix, runLength_eq h takeWhile_encode_line (decide_eq_true hline), Piece.split,
      if_neg hblank, if_neg hline, if_pos hslashes]
    show some (Except.ok (byteCount front + byteCount _, s.skip _)) = _
    rw [← Position.byteCount_append]
    rfl
  · have hprefix : ¬['/', '/'] <+: c :: cs := fun hmem =>
      hslashes (by simpa using pair_prefix_iff.1 hmem)
    rw [if_neg hprefix]
    exact readLexeme_eq h hb hblank hline hslashes

end

/-! ## All rounds -/

theorem length_le_byteCount (text : List Char) : text.length ≤ byteCount text := by
  induction text with
  | nil => exact Nat.le_refl 0
  | cons c cs ih =>
    have hc : 0 < c.utf8Size := c.utf8Size_pos
    show cs.length + 1 ≤ c.utf8Size + byteCount cs
    omega

section

variable {c : Char} (hc : Piece.isBlank c) (cs : List Char) (s : Scan)
include hc

theorem readPieces_blanks :
    s.readPieces (pieces (c :: cs)) =
      (s.skip (c :: cs.takeWhile Piece.isBlank)).readPieces
        (pieces (cs.dropWhile Piece.isBlank)) := by
  rw [pieces, Piece.split, if_pos hc, Scan.readPieces_cons]
  rfl

/-- Blanks may be passed one by one as well as all at once. -/
theorem readPieces_blank :
    s.readPieces (pieces (c :: cs)) = (s.skip [c]).readPieces (pieces cs) := by
  rw [readPieces_blanks hc]
  cases cs with
  | nil => rfl
  | cons d ds =>
    by_cases hd : Piece.isBlank d
    · have hskip : (s.skip [c]).skip (d :: ds.takeWhile Piece.isBlank) =
          s.skip (c :: d :: ds.takeWhile Piece.isBlank) := by
        unfold Scan.skip
        rw [Position.after_after]
        rfl
      rw [List.takeWhile_cons_of_pos hd, List.dropWhile_cons_of_pos hd, readPieces_blanks hd, hskip]
    · rw [List.takeWhile_cons_of_neg hd, List.dropWhile_cons_of_neg hd]

end

theorem rounds_nil {source : String} {front : List Char} (h : source.toList = front ++ [])
    (budget : Nat) (s : Scan) :
    rounds source budget (byteCount front) s = some (s.readPieces (pieces [])) := by
  have hend : ¬byteCount front < source.utf8ByteSize := by
    rw [utf8ByteSize_eq h]
    exact Nat.lt_irrefl _
  rw [pieces]
  cases budget with
  | zero =>
    rw [rounds, if_neg hend]
    rfl
  | succ budget =>
    rw [rounds, if_neg hend]
    rfl

/-- **From an index between two characters, the bytes are read as the pieces of what is left.** -/
theorem rounds_eq {source : String} (budget : Nat) {front rest : List Char} {s : Scan}
    (h : source.toList = front ++ rest) (hbudget : rest.length ≤ budget) :
    rounds source budget (byteCount front) s = some (s.readPieces (pieces rest)) := by
  -- the budget counts characters, and every round passes one of them or more
  induction budget generalizing front rest s with
  | zero =>
    obtain rfl := List.length_eq_zero_iff.1 (Nat.le_zero.1 hbudget)
    exact rounds_nil h 0 s
  | succ budget ih =>
    cases rest with
    | nil => exact rounds_nil h _ s
    | cons c cs =>
      have hlt : byteCount front < source.utf8ByteSize := by
        have hpos := length_le_byteCount (c :: cs)
        rw [List.length_cons] at hpos
        rw [utf8ByteSize_eq h]
        omega
      have hcs : cs.length ≤ budget := Nat.le_of_succ_le_succ hbudget
      rw [rounds, if_pos hlt]
      by_cases hblank : Piece.isBlank c
      · have hnext : source.toList = (front ++ [c]) ++ cs := by
          rw [h, List.append_assoc, List.singleton_append]
        rw [round_blank h hblank, readPieces_blank hblank]
        exact ih hnext hcs
      · have hnext : source.toList =
            (front ++ (Piece.split c cs).1.chars) ++ (Piece.split c cs).2 := by
          rw [h, List.append_assoc, Piece.chars_split]
        rw [round_eq h hblank, readPiece, pieces, Scan.readPieces_cons]
        cases s.next? (Piece.split c cs).1 with
        | error e => rfl
        | ok t => exact ih hnext ((Piece.length_split_snd_le c cs).trans hcs)

/-- **Texts can be read byte by byte.**  No slice cuts a character, and the tokens or the complaint
are those of the reading of pieces. -/
theorem scan_eq (source : String) : scan source = some (Token.scan source).result := by
  have hbudget : source.toList.length ≤ source.utf8ByteSize := by
    rw [utf8ByteSize_eq (List.nil_append source.toList).symm]
    exact (length_le_byteCount _).trans (Nat.le_add_left _ _)
  have hrounds := rounds_eq (s := {}) source.utf8ByteSize (List.nil_append _).symm hbudget
  unfold scan
  rw [result_scan]
  show rounds source source.utf8ByteSize (byteCount []) {} >>= _ = _
  rw [hrounds]
  cases ({} : Scan).readPieces (pieces source.toList) with
  | error e => rfl
  | ok t => rfl

end Bytes
end MicroGo
