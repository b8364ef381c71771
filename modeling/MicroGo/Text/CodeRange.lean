/-!
# Ranges of code points

A property of characters that a standard lists as a table is kept here as a list of closed ranges
of code points in ascending order, and a character has the property when its code point lies in one
of them.
-/

namespace MicroGo
namespace Text

/-- A table of closed ranges of code points, each given by its first and its last member. -/
abbrev CodeRanges := List (Nat × Nat)

/-- The code point of `c` lies in one of the ranges. -/
def CodeRanges.covers (ranges : CodeRanges) (c : Char) : Bool :=
  ranges.any fun range => range.1 ≤ c.toNat && c.toNat ≤ range.2

end Text
end MicroGo
