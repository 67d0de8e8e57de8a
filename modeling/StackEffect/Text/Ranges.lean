/-!
# Text/Ranges — classes of characters as ranges of code points
-/

namespace StackEffect.Text

/-- Whether a character lies in one of the ranges, both ends of which belong to it. -/
def inRanges (ranges : List (Nat × Nat)) (c : Char) : Bool :=
  ranges.any fun r => r.1 ≤ c.toNat && c.toNat ≤ r.2

/-- Whether a character is one of every other code point of one of the ranges, beginning with its
first. -/
def inSteps (ranges : List (Nat × Nat)) (c : Char) : Bool :=
  ranges.any fun r => r.1 ≤ c.toNat && c.toNat ≤ r.2 && (c.toNat - r.1) % 2 == 0

end StackEffect.Text
