import Descent.Fault
import Descent.Number.Word

/-!
# Streams

A source is a whole input, text or bytes, held as its units: code points or byte values. A stream is
a source with a read offset. The offset may be any integer, past the end or negative, and each view
says what it makes of such offsets: slices count a negative bound from the end and clamp it, single
units are indexed from the end and must exist, and a literal starts nowhere past the end.
-/

namespace Descent

/-- A whole input. -/
structure Source where
  /-- Which input this is: inputs of equal content given at different times have different
  numbers. -/
  ident : Nat
  kind : Kind
  units : Array Nat
deriving DecidableEq, Repr

/-- A source with a read offset. -/
structure Stream where
  source : Source
  offset : Int
deriving DecidableEq, Repr

namespace Source

/-- The number of units. -/
def size (s : Source) : Nat :=
  s.units.size

/-- The place that a slice bound stands for. -/
def bound (s : Source) (i : Int) : Nat :=
  if i < 0 then (i + s.size).toNat else min i.toNat s.size

/-- The units between two slice bounds. -/
def slice (s : Source) (start stop : Int) : List Nat :=
  (s.units.extract (s.bound start) (s.bound stop)).toList

/-- The units from a slice bound to the end. -/
def sliceFrom (s : Source) (start : Int) : List Nat :=
  (s.units.extract (s.bound start) s.size).toList

end Source

namespace Stream

/-- The kind of the source. -/
def kind (s : Stream) : Kind :=
  s.source.kind

/-- Whether the source is text. -/
def isText (s : Stream) : Bool :=
  s.kind = .text

/-- The units not yet read. -/
def rest (s : Stream) : List Nat :=
  s.source.sliceFrom s.offset

/-- The number of units not yet read. -/
def length (s : Stream) : Except Fault Int :=
  let n := s.source.size - s.offset
  if n < 0 then .error .negativeLength
  else if maxWord < n then .error .lengthTooLarge
  else .ok n

/-- The fault of an index outside a source. -/
def indexOutside : Kind → Fault
  | .text => .indexOutside .text
  | .bytes => .indexOutside .bytes

/-- The unit `n` places ahead, or none from the end on. -/
def peek (s : Stream) (n : Int) : Except Fault (Option Nat) :=
  let i := s.offset + n
  if s.source.size ≤ i then .ok none
  else if 0 ≤ i then .ok s.source.units[i.toNat]?
  else if 0 ≤ i + s.source.size then .ok s.source.units[(i + s.source.size).toNat]?
  else if !fitsWord i then .error .indexTooLarge
  else .error (indexOutside s.kind)

/-- Whether `literal`, of the source's own kind, stands at the offset. -/
def startsWith (s : Stream) (literal : List Nat) : Bool :=
  let start := if s.offset < 0 then (s.offset + s.source.size).toNat else s.offset.toNat
  start ≤ s.source.size && (s.source.units.extract start (start + literal.length)).toList = literal

/-- The stream `n` places further. -/
def advance (s : Stream) (n : Int) : Stream :=
  { s with offset := s.offset + n }

/-- The units between an earlier stream and this one, read off this one's source. -/
def consumedSince (s earlier : Stream) : List Nat :=
  s.source.slice earlier.offset s.offset

/-- Streams are equal where what they have left to read is. -/
def equal (s t : Stream) : Bool :=
  s.kind = t.kind && s.rest = t.rest

end Stream

end Descent
