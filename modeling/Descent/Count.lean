/-!
# Counts

The bounds of a repetition: any integer, or no bound. A maximum of zero or less admits nothing, and
a minimum of zero or less asks for nothing.
-/

namespace Descent

/-- A bound on the number of repetitions. -/
inductive Count where
  | finite (n : Int)
  | infinite
deriving DecidableEq, Repr

namespace Count

/-- The order of counts. -/
def le : Count → Count → Bool
  | _, infinite => true
  | infinite, finite _ => false
  | finite m, finite n => m ≤ n

/-- Whether a maximum still admits one more. -/
def isPositive : Count → Bool
  | finite n => 0 < n
  | infinite => true

/-- A maximum after one was taken. -/
def pred : Count → Count
  | finite n => finite (n - 1)
  | infinite => infinite

/-- Whether `n` items reach a minimum. -/
def isReachedBy (least : Count) (n : Nat) : Bool :=
  least.le (finite n)

end Count

end Descent
