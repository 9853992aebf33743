import Descent.Run
import Descent.Value.Shown

/-!
# Tracing

A traced rule notes where it is tried and how it ends. Events are kept as data; `Event.message` is
their wording, which holds the integers `Event.integers`.
-/

namespace Descent

/-- What a traced rule notes. -/
inductive Event where
  /-- The rule is tried at an offset, with some of the input from there on. -/
  | trying (label : Text) (offset : Int) (ahead : Value)
  /-- The rule succeeded with an output and goes on from an offset. -/
  | matched (label : Text) (output : Value) (offset : Int)
  /-- The rule failed with an error at an offset. -/
  | failed (label : Text) (error : Value) (offset : Int)
deriving Repr

/-- The wording of an event. -/
def Event.message : Event → Text
  | trying label offset ahead =>
    label ++ .ofString ": trying at offset " ++ Decimal.ofInt offset
      ++ .ofString ": " ++ ahead.shown
  | matched label output offset =>
    label ++ .ofString ": matched " ++ output.shown
      ++ .ofString ", now at offset " ++ Decimal.ofInt offset
  | failed label error offset =>
    label ++ .ofString ": failed with " ++ error.plain
      ++ .ofString " at offset " ++ Decimal.ofInt offset

/-- The integers in the wording of an event. -/
def Event.integers : Event → List Int
  | trying _ offset ahead => offset :: ahead.integers
  | matched _ output offset => offset :: output.integers
  | failed _ error offset => offset :: error.plainIntegers

/-- Whether an event can be worded. -/
def Event.isWritable (e : Event) : Bool :=
  e.integers.all Decimal.isWritable

/-- How many units of the input a trace shows. -/
def Event.window : Int := 30

/-- The event of trying a rule at a stream. -/
def Event.atStart (label : Text) (s : Stream) : Event :=
  .trying label s.offset (Value.ofUnits s.kind (s.source.slice s.offset (s.offset + window)))

/-- The event of a rule's end. -/
def Event.atEnd (label : Text) : Result → Event
  | .ok s x _ => .matched label x s.offset
  | .err s e _ => .failed label e s.offset

/-- Runs a rule and notes its start and end. -/
def Rule.traced {σ : Type} (note : Event → σ → σ) (label : Text) (p : Rule σ) : Rule σ :=
  fun s c => do
    Run.update (note (.atStart label s))
    let result ← p s c
    Run.update (note (.atEnd label result))
    return result

end Descent
