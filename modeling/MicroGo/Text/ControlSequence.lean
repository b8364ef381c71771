/-!
# Control sequences

A text may hold sequences of characters that tell a terminal to move its cursor, to change colours
or to name its window.  A record that goes to a file or through a pipe is written without them, and
without the controls that stand alone: what is left is what a reader is meant to see.

## How a sequence ends

A sequence begins with the escape character, and the next characters say of which kind it is.  A
`Sequence` is what has been read of one that has not ended.  Most kinds end at a letter.  A device
string and a private string end at another escape character or at the octet `9C`; that octet counts
wherever it stands, also within the encoding of another character.  An operating system command
ends at the bell.  Cancel and substitute end a sequence of any kind.

## Layout within a sequence

A tab or a line break does not wait for the end of a sequence that began with a mere escape or with
a bracket.  It is shown at once, and with it whatever follows, until the next character that cannot
be shown; there the sequence goes on where it was.  A character beyond the seven-bit ones ends it.
-/

namespace MicroGo
namespace Text

/-- The code point of `c` lies between two others or is one of them. -/
def isWithin (low high : Nat) (c : Char) : Bool :=
  low ≤ c.toNat && c.toNat ≤ high

/-- A control that lays out a text: tab, line feed, form feed or carriage return. -/
def isLayout (c : Char) : Bool :=
  c = '\t' || c = '\n' || c = '\x0c' || c = '\r'

/-- A character that is shown where no sequence hides it. -/
def isShown (c : Char) : Bool :=
  isLayout c || (0x20 ≤ c.toNat && c.toNat ≠ 0x7f)

/-- A control sequence that has begun and has not ended. -/
inductive Sequence where
  /-- The escape character alone. -/
  | escape
  /-- An escape character, and after it characters that only announce the last one. -/
  | designation
  /-- A function of the terminal with its parameters. -/
  | function
  /-- The head of a device string, before its first parameter. -/
  | device
  /-- The head of a device string, among its parameters. -/
  | deviceParameter
  /-- The head of a device string, behind its parameters. -/
  | deviceFunction
  /-- The body of a device string, or a private string. -/
  | body
  /-- An operating system command. -/
  | command
deriving Repr, DecidableEq

namespace Sequence

/-- What is left open of a sequence after one more character, if anything. -/
def next : Sequence → Char → Option Sequence
  | escape, c =>
      if isWithin 0x20 0x2f c then some designation
      else if c = '[' then some function
      else if c = ']' then some command
      else if c = 'P' then some device
      else if c = 'X' || c = '^' || c = '_' then some body
      else if isWithin 0x30 0x7e c then none
      else some escape
  | designation, c => if isWithin 0x30 0x7e c then none else some designation
  | function, c => if isWithin 0x40 0x7e c then none else some function
  | device, c =>
      if isWithin 0x20 0x2f c then some deviceFunction
      else if isWithin 0x30 0x3f c then some deviceParameter
      else if isWithin 0x40 0x7e c then some body
      else some device
  | deviceParameter, c =>
      if isWithin 0x20 0x2f c then some deviceFunction
      else if isWithin 0x3c 0x7e c then some body
      else some deviceParameter
  | deviceFunction, c => if isWithin 0x30 0x7e c then some body else some deviceFunction
  | body, c => if (String.utf8EncodeChar c).contains 0x9c then none else some body
  | command, c => if c = '\x07' then none else some command

/-- Tabs and line breaks are shown within the sequence. -/
def showsLayout : Sequence → Bool
  | escape | designation | function => true
  | device | deviceParameter | deviceFunction | body | command => false

end Sequence

/-- How the next character of a text is to be read. -/
inductive Reading where
  /-- As text.  A `pending` sequence goes on at the next character that cannot be shown. -/
  | shown (pending : Option Sequence)
  /-- As part of a sequence. -/
  | hidden (sequence : Sequence)
deriving Repr, DecidableEq

namespace Reading

/-- How to read on with a sequence, or without one. -/
def resume : Option Sequence → Reading
  | none => shown none
  | some sequence => hidden sequence

/-- How to read on after a character that means the same wherever it stands: the escape character
begins a sequence, and cancel and substitute end one. -/
def interrupt? (c : Char) : Option Reading :=
  if c = '\x1b' then some (hidden .escape)
  else if c = '\x18' || c = '\x1a' then some (shown none)
  else none

/-- Whether the next character is kept, and how to read on after it. -/
def step : Reading → Char → Bool × Reading
  | shown pending, c =>
      if isShown c then (true, shown (if c.toNat < 0x80 then pending else none))
      else (false, (interrupt? c).getD (resume pending))
  | hidden sequence, c =>
      if isLayout c && sequence.showsLayout then (true, shown (some sequence))
      else (false, (interrupt? c).getD (resume (sequence.next c)))

/-- The characters that are kept. -/
def kept : Reading → List Char → List Char
  | _, [] => []
  | reading, c :: cs =>
      let (isKept, reading) := reading.step c
      if isKept then c :: kept reading cs else kept reading cs

end Reading

/-- A text without control sequences and without controls other than those of its layout. -/
def withoutControls (text : String) : String :=
  String.ofList (Reading.kept (.shown none) text.toList)

end Text
end MicroGo
