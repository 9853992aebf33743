import Descent.Meaning

/-!
# Calling a parser

A call gives a parser an input and perhaps a context. The input must be text, bytes or a stream; a
missing context is the parser's default. What comes back can be taken as it is, as a pair of output
and error, or unwrapped, in which case a failure becomes a message with the place where it happened.
-/

namespace Descent

/-- What a parser is run on. -/
inductive Input where
  | value (v : Value)
  | stream (s : Stream)

/-- The stream to read an input from. Anything but a stream is a source of its own, with the given
number. -/
def Input.toStream (ident : Nat) : Input → Except Fault Stream
  | stream s => .ok s
  | value (.text t) => .ok ⟨⟨ident, .text, t.toArray⟩, 0⟩
  | value (.bytes b) | value (.buffer b) => .ok ⟨⟨ident, .bytes, b.toArray⟩, 0⟩
  | value v => .error (.unreadableInput v.typeName)

/-- An input, its number among the sources, and the context if one is given. -/
structure Call where
  ident : Nat := 0
  input : Input
  context : Option Value := none

/-- Runs a rule on a call. -/
def Call.run {σ : Type} (call : Call) (default : Value) (p : Rule σ) : Run σ Result := do
  let s ← Run.lift (call.input.toStream call.ident)
  p s (call.context.getD default)

/-- How a call ended, and what was logged meanwhile. -/
structure Outcome where
  result : Except Stop Result
  log : Log

/-- The outcome for a reader of the log: an event that cannot be worded is a fault, and the call
ends there. -/
def Outcome.worded (outcome : Outcome) : Outcome :=
  match outcome.log.findIdx? fun event => !event.isWritable with
  | none => outcome
  | some place => ⟨.error (.fault .notWritable), outcome.log.extract 0 place⟩

/-- More steps than any run takes. -/
def ampleBudget : Nat := 0x4000000000000000

/-- Calls a parser once. -/
def Parser.call (rules : Rules) (budget : Nat) (p : Parser Factory) (call : Call) : Outcome :=
  let (result, log) := call.run p.defaultContext (p.direct rules budget) #[]
  Outcome.worded ⟨result, log⟩

/-! ## Taking results apart -/

/-- A failure that was unwrapped. -/
structure ParseError where
  error : Value
  stream : Stream

/-- Where and why the parse failed: the line and column in a text, the offset in bytes. -/
def ParseError.message (e : ParseError) : Text :=
  let offset := e.stream.offset
  match e.stream.kind with
  | .bytes =>
    .ofString "Parse error at byte " ++ Decimal.ofInt offset ++ .ofString ": " ++ e.error.plain
  | .text =>
    let consumed := e.stream.source.slice 0 offset
    let line : Int := consumed.count Text.lineFeed + 1
    let column : Int := match Text.lastIndexOf? Text.lineFeed consumed with
      | none => offset
      | some i => offset - (i + 1)
    .ofString "Parse error at line " ++ Decimal.ofInt line
      ++ .ofString ", column " ++ Decimal.ofInt column
      ++ .ofString ": " ++ e.error.plain

/-- The message, if the error can be put into it. -/
def ParseError.describe (e : ParseError) : Except Fault Text :=
  if e.error.plainIntegers.all Decimal.isWritable then .ok e.message else .error .notWritable

/-- The output of a success, or the error of a failure. -/
def Result.unwrap : Result → Except ParseError Value
  | .ok _ x _ => .ok x
  | .err s e _ => .error ⟨e, s⟩

/-- The output and the error, one of them null. -/
def Result.pair : Result → Value × Value
  | .ok _ x _ => (x, .null)
  | .err _ e _ => (.null, e)

/-- Results are equal where both are of one sort and stream, output or error, and context match. -/
def Result.equal : Result → Result → Bool
  | .ok s x c, .ok t y d => s.equal t && x.same y && c.same d
  | .err s e c, .err t f d => s.equal t && e.same f && c.same d
  | _, _ => false

end Descent
