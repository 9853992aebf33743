import Descent.Text

/-!
# Ranges of code points

A property of code points is given by the ranges on which it holds, in increasing order. The search
for a code point ends at the first range that starts after it.
-/

namespace Descent.Text

/-- The code points from `first` to `last`, both included. -/
structure Range where
  first : Nat
  last : Nat
deriving DecidableEq, Repr

/-- Whether one of some ranges, given in increasing order, holds the code point. -/
def Range.anyHolds : List Range → Nat → Bool
  | [], _ => false
  | r :: rest, u => r.first ≤ u && (u ≤ r.last || anyHolds rest u)

end Descent.Text
