/-!
# Double-precision numbers

A double is its 64 bits. Finite doubles are `± m * 2 ^ q` with natural `m` and integral `q`; every
operation here works on `m` and `q` exactly.
-/

namespace Descent

/-- A double-precision number, as the 64 bits that encode it. -/
structure Double where
  bits : Nat
deriving DecidableEq, Repr

namespace Double

/-- What a double denotes. -/
inductive Shape where
  | nan
  | infinite (negative : Bool)
  /-- The number `± m * 2 ^ q`. -/
  | finite (negative : Bool) (m : Nat) (q : Int)
deriving DecidableEq, Repr

/-- The place value of the sign bit, the 63rd power of two. -/
def signUnit : Nat := 0x8000000000000000

/-- The place value of the exponent field, the 52nd power of two. -/
def exponentUnit : Nat := 0x10000000000000

/-- The largest exponent field, which marks infinities and NaNs. -/
def maxExponent : Nat := 2047

/-- The exponent of the finest grid, that of the smallest doubles. -/
def leastExponent : Int := -1074

/-- The sign bit. -/
def isNegative (d : Double) : Bool :=
  d.bits / signUnit % 2 = 1

/-- The exponent field, eleven bits wide. -/
def exponentField (d : Double) : Nat :=
  d.bits / exponentUnit % (maxExponent + 1)

/-- The fraction field, 52 bits wide. -/
def fractionField (d : Double) : Nat :=
  d.bits % exponentUnit

/-- What the bits of a double denote. -/
def shape (d : Double) : Shape :=
  if d.exponentField = maxExponent then
    if d.fractionField = 0 then .infinite d.isNegative else .nan
  else if d.exponentField = 0 then .finite d.isNegative d.fractionField leastExponent
  else .finite d.isNegative (exponentUnit + d.fractionField) (leastExponent + d.exponentField - 1)

/-- Whether a double is no number. -/
def isNaN (d : Double) : Bool :=
  d.shape = .nan

/-- A finite double as a fraction over a power of two. -/
def fraction? (d : Double) : Option (Int × Nat) :=
  match d.shape with
  | .finite negative m q =>
    let signed : Int := if negative then -m else m
    some (if 0 ≤ q then (signed * Nat.pow 2 q.toNat, 1) else (signed, Nat.pow 2 (-q).toNat))
  | _ => none

/-- The bits of a sign in front of the bits of a magnitude. -/
def withSign (negative : Bool) (magnitude : Nat) : Double :=
  ⟨(if negative then signUnit else 0) + magnitude⟩

/-- The quotient of two natural numbers, rounded to the nearest integer, a tie to the even one. -/
def roundDiv (num den : Nat) : Nat :=
  let floor := num / den
  let twice := 2 * (num % den)
  if twice < den then floor
  else if den < twice then floor + 1
  else floor + floor % 2

/-- The fraction `num / den` scaled by `2 ^ (-q)`, as numerator and denominator. -/
def scaled (num den : Nat) (q : Int) : Nat × Nat :=
  if 0 ≤ q then (num, den * Nat.pow 2 q.toNat) else (num * Nat.pow 2 (-q).toNat, den)

/-- The exponent `q` of the grid `2 ^ q` on which `num / den` is rounded: its integral part there
has 53 bits, unless the grid would be finer than that of the smallest doubles. -/
def gridExponent (num den : Nat) : Int :=
  let guess : Int := num.log2 - den.log2 - 52
  let (n, d) := scaled num den guess
  let q := if n / d < exponentUnit then guess - 1 else guess
  max q leastExponent

/-- The double nearest to `± num / den`, a tie to the even one. -/
def ofFraction (negative : Bool) (num den : Nat) : Double :=
  if num = 0 then withSign negative 0
  else
    let q := gridExponent num den
    let (n, d) := scaled num den q
    let m := roundDiv n d
    -- The carry of a rounded-up significand moves into the exponent field by itself.
    let magnitude := if m < exponentUnit then m else m + (q - leastExponent).toNat * exponentUnit
    withSign negative (min magnitude (maxExponent * exponentUnit))

/-- Whether two doubles denote equal numbers: the zeros are equal, and no NaN is equal to
anything. -/
def equal (a b : Double) : Bool :=
  match a.shape, b.shape with
  | .nan, _ => false
  | _, .nan => false
  | .finite _ 0 _, .finite _ 0 _ => true
  | _, _ => a.bits = b.bits

/-- Whether a double denotes the integer `i`. -/
def equalInt (a : Double) (i : Int) : Bool :=
  a.fraction?.any fun (num, den) => num = i * den

/-- Whether a double is at least the integer `i`. A NaN is not. -/
def atLeast (a : Double) (i : Int) : Bool :=
  match a.fraction? with
  | some (num, den) => i * den ≤ num
  | none => !a.isNaN && !a.isNegative

/-- The quiet form of a NaN, which has the highest bit of its fraction set. -/
def quiet (a : Double) : Double :=
  if a.fractionField < exponentUnit / 2 then ⟨a.bits + exponentUnit / 2⟩ else a

/-- A double plus one. -/
def increment (a : Double) : Double :=
  match a.fraction? with
  | some (num, den) =>
    let sum := num + den
    ofFraction (sum < 0) sum.natAbs den
  | none => if a.isNaN then a.quiet else a

end Double

end Descent
