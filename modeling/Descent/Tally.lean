import Descent.Call
import Descent.Prelude.Context

/-!
# A tally of digits

A grammar for digits between brackets, with commas between them, which counts each digit it collects
in the context.
-/

namespace Descent.Tally

/-- A context in which every digit has been seen no times. -/
def emptyCounts : Value :=
  .table ((List.range 10).map fun d => (.text [48 + d], .int 0))

/-- Adds one to the entry of a digit, which must be there. -/
def countDigit (digit : Value) : Value → Except Fault Value
  | .table entries =>
    match Table.get? digit entries with
    | none => .error (.missingKey digit.shown)
    | some n => do return .table (Table.insert digit (← n.increment) entries)
  | c => .error (.notTable c.typeName)

/-- A digit that is counted. -/
def countedDigit : Grammar :=
  (Grammar.leaf (.char .digit)).hooked (.onSuccess countDigit)

/-- Digits between brackets. -/
def digitArray : Grammar :=
  .between (.char '[') (.char ']') (.sepBy (.char ',') countedDigit)

/-- Digits between brackets, counted from the given context on. -/
def counter (initial : Option Value) : Grammar :=
  .unary (.context (initial.getD emptyCounts)) digitArray

end Descent.Tally
