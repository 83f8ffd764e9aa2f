/-
  HashArchive.Text.Ranges

  Sets of characters as ascending ranges of code points.
-/

namespace HashArchive.Text

/-- A set of characters: the code points between the two ends of some range, ends
    included. -/
abbrev Ranges := List (Nat × Nat)

/-- Whether the character lies in one of the ranges. -/
def Ranges.has (ranges : Ranges) (c : Char) : Bool :=
  ranges.any fun (low, high) => low ≤ c.toNat && c.toNat ≤ high

end HashArchive.Text
