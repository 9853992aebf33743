import Descent.Fault
import Descent.Text.Blank
import Descent.Text.Digit

/-!
# Reading numerals

Integers are read from runs of decimal digits, of any script. A run may be at most
`Decimal.maxDigits` long; leading zeros count, the sign does not. Blanks may stand around a numeral,
and nothing else; but too long a run is a fault whatever follows it.
-/

namespace Descent.Decimal

/-- The digits of a numeral, where single underscores may stand between digits. -/
def digits? : Text → Option Text
  | [] => none
  | [u] => if Text.isDigit u then some [u] else none
  | u :: 95 :: rest =>
    if Text.isDigit u then (digits? rest).map (u :: ·) else none
  | u :: rest =>
    if Text.isDigit u then (digits? rest).map (u :: ·) else none

/-- Whether the code point is an ASCII blank. -/
def isPadding (u : Nat) : Bool :=
  u = 32 || (9 ≤ u && u ≤ 13)

/-- Whether the code point belongs to a run of digits, in which underscores may stand. -/
def isRunPart (u : Nat) : Bool :=
  Text.isDigit u || u = 95

/-- A code point of a numeral in ASCII: the digit of the same value, or the space for a blank. -/
def toAscii (u : Nat) : Nat :=
  if Text.isBlank u then 32
  else match Text.digitValue? u with
    | some d => 48 + d
    | none => u

/-- The integer of a run of digits behind a sign, unless there are too many of them. -/
def signed (negative : Bool) (digits : Text) : Except Fault Int :=
  if maxDigits < digits.length then .error (.tooManyDigits digits.length)
  else
    let n : Int := value digits
    .ok (if negative then -n else n)

/-- The integer that an ASCII numeral denotes: a run of digits behind an optional sign, with padding
around them. The run is read as far as it goes, and only then is it checked that nothing follows.
The shown form is for the fault. -/
def integer (shown t : Text) : Except Fault Int :=
  let (negative, unsigned) := match t.dropWhile isPadding with
    | 45 :: rest => (true, rest)
    | 43 :: rest => (false, rest)
    | rest => (false, rest)
  match digits? (unsigned.takeWhile isRunPart) with
  | none => .error (.notNumeral shown)
  | some digits => do
    let i ← signed negative digits
    if (unsigned.dropWhile isRunPart).all isPadding then .ok i else .error (.notNumeral shown)

end Descent.Decimal
