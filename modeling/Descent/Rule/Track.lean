import Descent.Run
import Descent.Value.Table

/-!
# Position tracking

The position of a stream is kept in the context, as a tracker under a key of its own, which no user
has. A rule that tracks positions starts a fresh tracker at its own stream; the position rule asks
the tracker and moves it on. The tracker travels with the context, so it may have been moved by an
attempt that came to nothing, and `Tracker.locate` counts again where the input went back.
-/

namespace Descent.Rule

variable {σ : Type}

/-- The tracker in a context, if it holds one. Null under the key of trackers is as good as nothing,
and anything else there cannot be asked for a position. -/
def trackerOf? (c : Value) : Except Fault (Option Tracker) :=
  match c.get? .trackerKey with
  | none | some .null => .ok none
  | some (.tracker t) => .ok (some t)
  | some v => .error (.notTracker v.typeName)

/-- The context with a tracker put in. -/
def withTracker (t : Tracker) : Value → Value
  | .table entries => .table (Table.insert .trackerKey (.tracker t) entries)
  | c => c

/-- The current position, without consuming. -/
def position (s : Stream) (c : Value) : Except Fault Result := do
  match ← trackerOf? c with
  | none => return .err s (.tag .missingPositionContext) c
  | some t => return .ok s (.position (t.locate s)) (withTracker (t.moveTo s) c)

/-- Runs a rule with a tracker that starts at the current stream. The context must be a table. -/
def tracked (p : Rule σ) : Rule σ :=
  fun s c =>
    match c with
    | .table _ => p s (withTracker (.start s) c)
    | _ => Run.stop (.fault (.contextNotTable c.typeName))

/-- The span that the outputs of a position, a rule and a position make. -/
def toSpan : Value → Value
  | .tuple [.position start, x, .position stop] => .span x start stop
  | v => v

end Descent.Rule
