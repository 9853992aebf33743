import Descent.Number.Shortest
import Descent.Text.Quoted
import Descent.Value

/-!
# Values as text

`Value.shown` writes a value so that its type can be told: texts and bytes are quoted, a tuple of
one item has a comma. `Value.plain` is for readers of messages: a text stands for itself, a tag is
its name, and a repetition that fell short says so in words. Neither is written if it has an integer
of too many digits: `Value.integers` and `Value.plainIntegers` are the integers to look at.
-/

namespace Descent

/-- How numbers without digits are written in a message. -/
def messageSpecials : Shortest.Specials :=
  ⟨.ofString "nan", .ofString "inf"⟩

/-- A position, field by field. -/
def Position.shown (p : Position) : Text :=
  .ofString "Position(offset=" ++ Decimal.ofInt p.offset
    ++ .ofString ", line=" ++ Decimal.ofInt p.line
    ++ .ofString ", column=" ++ Decimal.ofInt p.column ++ .ofString ")"

/-- Units of a source, quoted. -/
def Kind.quoted : Kind → List Nat → Text
  | .text, us => Text.Quoted.text us
  | .bytes, us => Text.Quoted.bytes us

/-- A stream, by what it has left to read. -/
def Stream.shown (s : Stream) : Text :=
  .ofString "Stream(" ++ s.kind.quoted s.rest ++ .ofString ")"

/-- A tracker, field by field. -/
def Tracker.shown (t : Tracker) : Text :=
  .ofString "PositionState(position=" ++ t.position.shown
    ++ .ofString ", last_input=" ++ t.last.shown
    ++ .ofString ", origin=" ++ t.origin.shown ++ .ofString ")"

/-- A tag, as the constant it is. -/
def Tag.shown (t : Tag) : Text :=
  .ofString "<ErrorKind." ++ t.constant ++ .ofString ": " ++
    Text.Quoted.text t.name ++ .ofString ">"

namespace Value

/-- What stands between two items. -/
def comma : Text :=
  .ofString ", "

mutual

/-- A value in the notation that tells its type. -/
def shown : Value → Text
  | .null => .ofString "None"
  | .bool true => .ofString "True"
  | .bool false => .ofString "False"
  | .int i => Decimal.ofInt i
  | .float d | .nan d _ => Shortest.text messageSpecials d
  | .text t => Text.Quoted.text t
  | .bytes b => Text.Quoted.bytes b
  | .buffer b => .ofString "bytearray(" ++ Text.Quoted.buffer b ++ .ofString ")"
  | .list items => .ofString "[" ++ Text.intercalate comma (shownAll items) ++ .ofString "]"
  | .tuple [item] => .ofString "(" ++ shown item ++ .ofString ",)"
  | .tuple items => .ofString "(" ++ Text.intercalate comma (shownAll items) ++ .ofString ")"
  | .table entries =>
    .ofString "\x7b" ++ Text.intercalate comma (shownEntries entries) ++ .ofString "\x7d"
  | .tag t => t.shown
  | .shortfall t output =>
    .ofString "MinCountError(kind=" ++ t.shown ++ .ofString ", output=["
      ++ Text.intercalate comma (shownAll output) ++ .ofString "])"
  | .position p => p.shown
  | .span value start stop =>
    .ofString "Span(value=" ++ shown value ++ .ofString ", start=" ++ start.shown
      ++ .ofString ", end=" ++ stop.shown ++ .ofString ")"
  | .trackerKey => .ofString "<position>"
  | .tracker t => t.shown

/-- The items, each in that notation. -/
def shownAll : List Value → List Text
  | [] => []
  | v :: vs => shown v :: shownAll vs

/-- The entries, each as key, colon and value. -/
def shownEntries : List (Value × Value) → List Text
  | [] => []
  | (k, v) :: rest => (shown k ++ .ofString ": " ++ shown v) :: shownEntries rest

end

/-- A value as a message gives it. -/
def plain : Value → Text
  | .text t => t
  | .tag t => t.name
  | .position p => p.place
  | .shortfall t output =>
    t.name ++ .ofString ": expected more items after " ++ Decimal.ofNat output.length
  | v => v.shown

/-! ## The integers that are written -/

end Value

/-- The integers in the shown form of a position. -/
def Position.integers (p : Position) : List Int :=
  [p.offset, p.line, p.column]

namespace Value

mutual

/-- The integers in the shown form of a value. -/
def integers : Value → List Int
  | .int i => [i]
  | .list items | .tuple items | .shortfall _ items => integersOfAll items
  | .table entries => integersOfEntries entries
  | .position p => p.integers
  | .span value start stop => integers value ++ start.integers ++ stop.integers
  | .tracker t => t.position.integers
  | _ => []

/-- The integers in the shown forms of some values. -/
def integersOfAll : List Value → List Int
  | [] => []
  | v :: vs => integers v ++ integersOfAll vs

/-- The integers in the shown forms of some entries. -/
def integersOfEntries : List (Value × Value) → List Int
  | [] => []
  | (k, v) :: rest => integers k ++ integers v ++ integersOfEntries rest

end

/-- The integers in the plain form of a value. -/
def plainIntegers : Value → List Int
  | .text _ | .tag _ => []
  | .position p => [p.line, p.column]
  | .shortfall _ output => [output.length]
  | v => v.integers

/-- The plain form of a value, if its integers can be written. -/
def toText (v : Value) : Except Fault Text :=
  if v.plainIntegers.all Decimal.isWritable then .ok v.plain else .error .notWritable

end Value

end Descent
