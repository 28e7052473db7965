/-!
# Ranges of code points

A class of characters as a list of ranges of code points.

## Main Definitions

* `Text.Ranges` - ascending, disjoint, inclusive ranges
* `Text.Ranges.has` - whether a character lies in one of them
-/

namespace TypeFlow.Text

/-- Ascending, disjoint, inclusive ranges of code points. -/
abbrev Ranges := List (Nat × Nat)

/-- Whether a character lies in one of the ranges. -/
def Ranges.has (rs : Ranges) (c : Char) : Bool :=
  rs.any fun r => r.1 ≤ c.toNat && c.toNat ≤ r.2

end TypeFlow.Text
