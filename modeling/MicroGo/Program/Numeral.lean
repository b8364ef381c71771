/-!
# Numerals

A numeral is a run of decimal digits, after at most one sign, that denotes a signed word of 64
bits.  Every other text denotes nothing.  The scanner makes numerals without a sign only.
-/

namespace MicroGo
namespace Numeral

/-- The number denoted by a nonempty run of decimal digits. -/
def digits? (cs : List Char) : Option Nat :=
  if cs ≠ [] ∧ cs.all Char.isDigit then some (Nat.ofDigitChars 10 cs 0) else none

/-- The integer denoted by digits after at most one sign. -/
def integer? : List Char → Option Int
  | '-' :: cs => (digits? cs).map fun n => -(n : Int)
  | '+' :: cs => (digits? cs).map fun n => (n : Int)
  | cs => (digits? cs).map fun n => (n : Int)

/-- An integer as a signed word. -/
def word? (value : Int) : Option Int64 :=
  if Int64.minValue.toInt ≤ value ∧ value ≤ Int64.maxValue.toInt then some (Int64.ofInt value)
  else none

/-- The signed word that a text denotes. -/
def read? (text : String) : Option Int64 :=
  (integer? text.toList).bind word?

end Numeral
end MicroGo
