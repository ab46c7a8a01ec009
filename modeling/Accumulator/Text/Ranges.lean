/-! Sets of characters as lists of code point ranges. -/

namespace Accumulator.Text

/-- The code point `n` lies in one of the ranges, whose ends are included. -/
def inRanges (ranges : List (Nat × Nat)) (n : Nat) : Bool :=
  ranges.any fun range => range.1 ≤ n && n ≤ range.2

end Accumulator.Text
