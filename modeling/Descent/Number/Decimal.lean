import Descent.Text

/-!
# Decimal numerals

Writing integers in decimal notation and reading runs of decimal digits.
-/

namespace Descent.Decimal

/-- The decimal digits of `n` in front of `tail`. -/
def digitsOnto (n : Nat) (tail : Text) : Text :=
  if n < 10 then (48 + n) :: tail else digitsOnto (n / 10) ((48 + n % 10) :: tail)
termination_by n

/-- A natural number in decimal notation, without leading zeros. -/
def ofNat (n : Nat) : Text :=
  digitsOnto n []

/-- An integer in decimal notation. -/
def ofInt : Int → Text
  | .ofNat n => ofNat n
  | .negSucc n => 45 :: ofNat (n + 1)

/-- The number that a run of decimal digits denotes. -/
def value (digits : Text) : Nat :=
  digits.foldl (fun n u => 10 * n + (u - 48)) 0

/-- The most digits of a numeral that is read as an integer, or that an integer is written as. -/
def maxDigits : Nat := 4300

/-- Whether an integer has few enough digits to be written. -/
def isWritable (i : Int) : Bool :=
  (ofNat i.natAbs).length ≤ maxDigits

end Descent.Decimal
