import Descent.Count
import Descent.Number.Reading
import Descent.Value.Shown
import Descent.Value.Table

/-!
# Values as numbers

A value may be asked for the integer it is or denotes, for the bound on repetitions that it is, and
for its order with another. A double becomes an integer by rounding toward zero, and a bound by
rounding up, since a repetition counts as long as it is below the bound. What a value cannot be
asked is a fault that names its type.
-/

namespace Descent

/-! ## Integers and bounds -/

/-- The integral part of a double, rounded toward zero. -/
def Double.toInteger (d : Double) : Except Fault Int :=
  match d.fraction? with
  | some (num, den) => .ok (num.tdiv den)
  | none => .error (if d.isNaN then .integerOfNaN else .integerOfInfinity)

/-- The integer that a value is or denotes. A text may use the digits of any script, bytes only
those of ASCII. -/
def Value.toInteger (v : Value) : Except Fault Int :=
  match v with
  | .text t => Decimal.integer (Text.Quoted.text t) (t.map Decimal.toAscii)
  | .bytes b | .buffer b => Decimal.integer (Text.Quoted.bytes (b.take Fault.excerptLength)) b
  | .float d | .nan d _ => d.toInteger
  | _ =>
    match v.integer? with
    | some i => .ok i
    | none => .error (.notNumber v.typeName)

/-- The bound on repetitions that a double is. Between two integers it is the upper one; a NaN
admits nothing and asks for nothing. -/
def Double.toCount (d : Double) : Count :=
  match d.fraction? with
  | some (num, den) => .finite (-(-num).fdiv den)
  | none => if d.isNaN || d.isNegative then .finite 0 else .infinite

/-- The bound on repetitions that a value is. Anything else than a number has no order at all, or,
if it is made of items, none with a number of repetitions. -/
def Value.toCount (v : Value) : Except Fault Count :=
  match v with
  | .float d | .nan d _ => .ok d.toCount
  | .text _ | .bytes _ | .buffer _ | .list _ | .tuple _ =>
    .error (.notComparable .below "int" v.typeName)
  | _ =>
    match v.integer? with
    | some i => .ok (.finite i)
    | none => .error (.notComparable .above v.typeName v.typeName)

/-! ## Order -/

/-- Whether one text comes before another or is equal to it, by code points. -/
def Text.le : Text → Text → Bool
  | [], _ => true
  | _ :: _, [] => false
  | a :: as, b :: bs => a < b || (a = b && le as bs)

/-- Whether a unit is at most a bound, as far as the two have an order. -/
def Value.le (v w : Value) : Except Fault Bool :=
  match v, w, v.integer?, w.integer? with
  | .text t, .text u, _, _ => .ok (t.le u)
  | _, _, some i, some j => .ok (i ≤ j)
  | _, .float d, some i, _ => .ok (d.atLeast i)
  | _, .nan _ _, some _, _ => .ok false
  | _, _, _, _ => .error (.notComparable .atMost v.typeName w.typeName)

end Descent
