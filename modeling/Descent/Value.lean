import Descent.Number.Double
import Descent.Position
import Descent.Tag

/-!
# Values

Outputs, errors and contexts are values of one dynamic type: what a grammar yields depends on its
input, and the same values are passed to callbacks, kept in contexts and shown in messages. A table
keeps its entries in the order in which their keys were first put. A NaN equals no number, so the
NaNs that are given are numbered, and each can be told from the others.
-/

namespace Descent

/-- A value: an output, an error, or a context. -/
inductive Value where
  | null
  | bool (b : Bool)
  | int (i : Int)
  | float (d : Double)
  /-- A NaN that was given, with its number. -/
  | nan (d : Double) (ident : Nat)
  | text (t : Text)
  | bytes (b : List Nat)
  /-- Bytes that may change: accepted as input, never a key. -/
  | buffer (b : List Nat)
  | list (items : List Value)
  | tuple (items : List Value)
  | table (entries : List (Value × Value))
  | tag (t : Tag)
  /-- A repetition that stopped below its minimum, with what it had gathered. -/
  | shortfall (t : Tag) (output : List Value)
  | position (p : Position)
  /-- A value with the positions at which its text starts and ends. -/
  | span (value : Value) (start stop : Position)
  /-- The key under which a context holds the state of position tracking. -/
  | trackerKey
  | tracker (t : Tracker)
deriving Inhabited, Repr

namespace Value

/-- The table without entries, which is the context of a parser that is given none. -/
def emptyTable : Value :=
  .table []

/-- The value of a double. A NaN takes the number; without one it matches nothing, not even
itself. -/
def ofDouble (ident : Option Nat) (d : Double) : Value :=
  match ident with
  | some n => if d.isNaN then .nan d n else .float d
  | none => .float d

/-- The value of one unit: a text of one character, or a byte as an integer. -/
def ofUnit : Kind → Nat → Value
  | .text, u => .text [u]
  | .bytes, u => .int u

/-- Units as one value: a text, or bytes. -/
def ofUnits : Kind → List Nat → Value
  | .text, us => .text us
  | .bytes, us => .bytes us

/-- The name of a value's type, as messages give it. -/
def typeName : Value → String
  | null => "NoneType"
  | bool _ => "bool"
  | int _ => "int"
  | float _ | nan _ _ => "float"
  | text _ => "str"
  | bytes _ => "bytes"
  | buffer _ => "bytearray"
  | list _ => "list"
  | tuple _ => "tuple"
  | table _ => "dict"
  | tag _ => "ErrorKind"
  | shortfall _ _ => "MinCountError"
  | position _ => "Position"
  | span _ _ _ => "Span"
  | trackerKey => "_PositionKey"
  | tracker _ => "PositionState"

end Value

end Descent
