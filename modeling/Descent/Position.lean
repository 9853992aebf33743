import Descent.Stream

/-!
# Positions

A position is an offset with the line and column it falls on. Lines count from one and columns from
zero; a line feed ends a line, alone or after a carriage return. Advancing over a chunk jumps
straight to its last line.
-/

namespace Descent

/-- A place in the input. -/
structure Position where
  offset : Int := 0
  line : Int := 1
  column : Int := 0
deriving DecidableEq, Repr

/-- What position tracking remembers: the position of the stream `last`, counted from the stream
`origin`. -/
structure Tracker where
  position : Position
  last : Stream
  origin : Stream
deriving DecidableEq, Repr

namespace Position

/-- The position after the given units. -/
def advance (p : Position) (consumed : List Nat) : Position :=
  let offset := p.offset + consumed.length
  match Text.lastIndexOf? Text.lineFeed consumed with
  | none => ⟨offset, p.line, p.column + consumed.length⟩
  | some i => ⟨offset, p.line + consumed.count Text.lineFeed, consumed.length - i - 1⟩

/-- The position as a reader would give it. -/
def place (p : Position) : Text :=
  .ofString "line " ++ Decimal.ofInt p.line ++ .ofString ", column " ++ Decimal.ofInt p.column

end Position

namespace Tracker

/-- Tracking that begins at a stream. -/
def start (s : Stream) : Tracker :=
  ⟨{}, s, s⟩

/-- The position of a stream. Ahead of the last stream on the same source the remembered position is
advanced; otherwise the input went back, and the count starts again from the origin. -/
def locate (t : Tracker) (s : Stream) : Position :=
  if s.source.ident = t.last.source.ident ∧ t.last.offset ≤ s.offset then
    t.position.advance (s.consumedSince t.last)
  else
    Position.advance {} (s.consumedSince t.origin)

/-- The tracker after the position of a stream has been asked for. -/
def moveTo (t : Tracker) (s : Stream) : Tracker :=
  { t with position := t.locate s, last := s }

end Tracker

end Descent
