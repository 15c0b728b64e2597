/-!
# Sets of characters given by code point ranges
-/
namespace Ilang.Text

/-- Whether a code point lies in one of the ranges. A range includes both its ends, and the ranges
stand in rising order. -/
def inRanges : List (Nat × Nat) → Nat → Bool
  | [], _ => false
  | (lo, hi) :: rest, n => if n < lo then false else n ≤ hi || inRanges rest n

end Ilang.Text
