/-!
# Machine words

Offsets, indices and lengths are kept as integers of any size. Where one is handed on as a place in
a sequence it must fit into a signed machine word of 64 bits.
-/

namespace Descent

/-- The largest number that a machine word holds. -/
def maxWord : Int := 0x7FFFFFFFFFFFFFFF

/-- Whether a number fits into a machine word. -/
def fitsWord (i : Int) : Bool :=
  -maxWord - 1 ≤ i && i ≤ maxWord

end Descent
