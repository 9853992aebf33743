import Descent.Value.Shown

/-!
# Walking over a stream

A walk keeps the streams it has reached, numbered from zero, and stands on one of them. Each step
either moves or asks the current stream for one of its views; a step at fault leaves the walk where
it was.
-/

namespace Descent

/-- The units of a literal of the source's kind. -/
def Stream.literal? (s : Stream) : Value → Option (List Nat)
  | .text t => if s.kind = .text then some t else none
  | .bytes b | .buffer b => if s.kind = .bytes then some b else none
  | _ => none

/-- Whether one of some literals, all of the source's kind, stands at the offset. -/
def Stream.startsWithOne (s : Stream) : List Value → Except Fault Bool
  | [] => .ok false
  | v :: vs =>
    match s.literal? v with
    | some units => if s.startsWith units then .ok true else s.startsWithOne vs
    | none => .error (.literalItem s.kind v.typeName)

/-- Whether a literal of the source's kind, or one of a tuple of them, stands at the offset. -/
def Stream.startsWithValue (s : Stream) (v : Value) : Except Fault Bool :=
  match s.literal? v, v with
  | some units, _ => .ok (s.startsWith units)
  | none, .tuple vs => s.startsWithOne vs
  | none, v => .error (.literalKind s.kind v.typeName)

/-- Whether what a stream has left to read is the given text or bytes. -/
def Stream.equalValue (s : Stream) : Value → Bool
  | .text t => s.kind = .text && s.rest = t
  | .bytes b => s.kind = .bytes && s.rest = b
  | _ => false

/-- The streams that differ from all before them. -/
def Stream.distinct : List Stream → List Stream
  | [] => []
  | s :: rest => s :: (distinct rest).filter fun t => !s.equal t

/-- The streams reached so far and the number of the current one. -/
structure Walk where
  streams : Array Stream
  current : Nat

namespace Walk

/-- A walk that begins at a stream. -/
def start (s : Stream) : Walk :=
  ⟨#[s], 0⟩

/-- A step of a walk. -/
inductive Step where
  | advance (n : Int)
  | goto (k : Nat)
  | length
  | rest
  | isText
  | peek (n : Int)
  | startsWith (literal : Value)
  | consumedSince (k : Nat)
  | equals (v : Value)
  | equalsStream (s : Stream)
  | equalsReached (k : Nat)
  | shown
  | distinct (ks : List Nat)

/-- What a step answers. -/
inductive Answer where
  | offset (n : Int)
  | value (v : Value)

/-- The stream with a number, or the current one if there is none. -/
def streamAt (w : Walk) (s : Stream) (k : Nat) : Stream :=
  (w.streams[k]?).getD s

/-- What the current stream answers to a question. -/
def ask (w : Walk) (s : Stream) : Step → Except Fault Value
  | .length => do return .int (← s.length)
  | .rest => .ok (.ofUnits s.kind s.rest)
  | .isText => .ok (.bool s.isText)
  | .peek n => do return ((← s.peek n).map (Value.ofUnit s.kind)).getD .null
  | .startsWith literal => do return .bool (← s.startsWithValue literal)
  | .consumedSince k => .ok (.ofUnits s.kind (s.consumedSince (w.streamAt s k)))
  | .equals v => .ok (.bool (s.equalValue v))
  | .equalsStream t => .ok (.bool (s.equal t))
  | .equalsReached k => .ok (.bool (s.equal (w.streamAt s k)))
  | .shown => .ok (.text s.shown)
  | .distinct ks => .ok (.int (Stream.distinct (ks.map (w.streamAt s))).length)
  | .advance _ | .goto _ => .ok .null

/-- Performs a step on the current stream. -/
def perform (w : Walk) (s : Stream) : Step → Except Fault Answer × Walk
  | .advance n =>
    let t := s.advance n
    (.ok (.offset t.offset), ⟨w.streams.push t, w.streams.size⟩)
  | .goto k => (.ok (.offset (w.streamAt s k).offset), { w with current := k })
  | step => ((w.ask s step).map .value, w)

/-- Performs the steps in order. -/
def performAll (w : Walk) : List Step → List (Except Fault Answer)
  | [] => []
  | step :: rest =>
    match w.streams[w.current]? with
    | none => []
    | some s =>
      let (answer, w) := w.perform s step
      answer :: w.performAll rest

end Walk

end Descent
