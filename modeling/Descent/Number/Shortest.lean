import Descent.Number.Decimal
import Descent.Number.Double

/-!
# The shortest decimal that reads back

A finite double is written with the fewest significant digits that round back to it, and of those
decimals the one nearest to it. For each digit count in turn the two neighbours of the value on that
decimal grid are tested against the interval of reals that round to the value.
-/

namespace Descent.Shortest

/-- A positive decimal `0.d₁d₂… * 10 ^ point`, its digits as code points. -/
structure Numeral where
  digits : Text
  point : Int

/-- The reals that round to a positive double, all four numbers over the denominator `den`. -/
structure Interval where
  low : Nat
  value : Nat
  high : Nat
  den : Nat
  /-- Whether the ends round to the double too. -/
  closed : Bool

/-- The interval of the double `m * 2 ^ q`. Below a power of two the gap to the next double is half
as wide. -/
def Interval.ofFinite (m : Nat) (q : Int) : Interval :=
  let lowGap := if m = Double.exponentUnit ∧ Double.leastExponent < q then 1 else 2
  let unit := if 2 ≤ q then Nat.pow 2 (q - 2).toNat else 1
  let den := if 2 ≤ q then 1 else Nat.pow 2 (2 - q).toNat
  ⟨(4 * m - lowGap) * unit, 4 * m * unit, (4 * m + 2) * unit, den, m % 2 = 0⟩

/-- Whether the fraction `num / den` lies in the interval. -/
def Interval.holds (i : Interval) (num den : Nat) : Bool :=
  let scaled := num * i.den
  if i.closed then i.low * den ≤ scaled && scaled ≤ i.high * den
  else i.low * den < scaled && scaled < i.high * den

/-- The number of zeros between the point and the first other digit of `value / den < 1`, counted
from `zeros` on and for at most `fuel` steps. -/
def leadingZeros (value den : Nat) : (fuel : Nat) → (zeros : Nat) → Nat
  | 0, zeros => zeros
  | fuel + 1, zeros =>
    if den ≤ value * Nat.pow 10 (zeros + 1) then zeros else leadingZeros value den fuel (zeros + 1)

/-- The integer `point` with `10 ^ (point - 1) ≤ value / den < 10 ^ point`. -/
def decimalPoint (value den : Nat) : Int :=
  if den ≤ value then (Decimal.ofNat (value / den)).length
  else -(leadingZeros value den 400 0 : Int)

/-- The digits that stand before a run of zeros at the end. -/
def stripZeros (digits : Text) : Text :=
  (digits.reverse.dropWhile (· = 48)).reverse

/-- The numeral `d * 10 ^ exponent`. -/
def Numeral.ofScaled (d : Nat) (exponent : Int) : Numeral :=
  let digits := Decimal.ofNat d
  ⟨stripZeros digits, exponent + digits.length⟩

/-- The nearest decimal with `count` significant digits in the interval, if there is one. -/
def candidate? (i : Interval) (point : Int) (count : Nat) : Option Numeral :=
  let exponent := point - count
  let up := if 0 ≤ exponent then Nat.pow 10 exponent.toNat else 1
  let down := if 0 ≤ exponent then 1 else Nat.pow 10 (-exponent).toNat
  let scaledValue := i.value * down
  let unit := i.den * up
  let d := scaledValue / unit
  let below := i.holds (d * up) down
  let above := i.holds ((d + 1) * up) down
  let twice := 2 * (scaledValue % unit)
  let chosen :=
    if below && above then
      some (if twice < unit then d else if unit < twice then d + 1 else d + d % 2)
    else if below then some d
    else if above then some (d + 1)
    else none
  chosen.map fun d => Numeral.ofScaled d exponent

/-- The first digit count from `count` on whose grid meets the interval. -/
def search (i : Interval) (point : Int) : (fuel : Nat) → (count : Nat) → Numeral
  | 0, _ => ⟨[], point⟩
  | fuel + 1, count =>
    match candidate? i point count with
    | some numeral => numeral
    | none => search i point fuel (count + 1)

/-- The shortest decimal that rounds to the positive double `m * 2 ^ q`. -/
def ofFinite (m : Nat) (q : Int) : Numeral :=
  let i := Interval.ofFinite m q
  search i (decimalPoint i.value i.den) 17 1

/-- A numeral in positional notation, with at least one digit on each side of the point. -/
def Numeral.positional (n : Numeral) : Text :=
  if n.point ≤ 0 then
    Text.ofString "0." ++ List.replicate (-n.point).toNat 48 ++ n.digits
  else
    let whole := n.point.toNat
    let fraction := n.digits.drop whole
    n.digits.take whole ++ List.replicate (whole - n.digits.length) 48 ++ [46]
      ++ (if fraction = [] then [48] else fraction)

/-- A numeral in exponent notation, the exponent signed and at least two digits wide. -/
def Numeral.scientific (n : Numeral) : Text :=
  let exponent := n.point - 1
  let width := Decimal.ofNat exponent.natAbs
  let fraction := n.digits.drop 1
  n.digits.take 1 ++ (if fraction = [] then [] else 46 :: fraction)
    ++ [101, if exponent < 0 then 45 else 43]
    ++ (if width.length < 2 then 48 :: width else width)

/-- A numeral as text: positional from `0.0001` up to below `10 ^ 16`. -/
def Numeral.render (n : Numeral) : Text :=
  if -4 < n.point && n.point ≤ 16 then n.positional else n.scientific

/-- The texts of the three numbers that have no digits. -/
structure Specials where
  nan : Text
  infinity : Text

/-- A double as text. -/
def text (specials : Specials) (d : Double) : Text :=
  let signed (negative : Bool) (t : Text) := if negative then 45 :: t else t
  match d.shape with
  | .nan => specials.nan
  | .infinite negative => signed negative specials.infinity
  | .finite negative m q =>
    signed negative (if m = 0 then Text.ofString "0.0" else (ofFinite m q).render)

end Descent.Shortest
