/-!
# Character ranges

A character property is given by the ranges of code points that have it, in increasing order.
-/

namespace EventLint.Text

/-- Ranges of code points, both ends included. -/
abbrev Ranges := List (Nat × Nat)

def Ranges.holds (ranges : Ranges) (c : Char) : Bool :=
  ranges.any fun (first, last) => first ≤ c.toNat && c.toNat ≤ last

end EventLint.Text
