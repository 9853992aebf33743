import Descent.Proofs.Streams

/-!
# Descent — counting lines and columns

Advancing a position jumps straight to the last line of a chunk. It comes to the same as stepping
over the units of the chunk one by one, so it makes no difference where a text is cut, and a tracker
that is asked now and then knows, at any stream, what a count from its origin would give.

* **`Position.step`** — the position behind one unit. A chunk is the fold of its steps
  (`Position.advance_eq_foldl`).
* **`Position.advance_acts`** — advancing is an action of texts under concatenation, whatever the
  chunks are.
* **`Tracker.Accurate`** — the tracker began at a given stream, and remembers the right position of
  some stream between there and the end. It may lag behind the stream it is asked about or have run
  ahead of it.
* **`Tracker.Accurate.locate_eq`** — either way its answer is the count from the origin.
-/

namespace Descent

/-! ## One unit at a time -/

/-- What does not occur last does not occur. -/
theorem Text.count_of_lastIndexOf? {u : Nat} {a : List Nat} (h : lastIndexOf? u a = none) :
    a.count u = 0 := by
  induction a with
  | nil => rfl
  | cons x a ih =>
    rw [lastIndexOf?] at h
    cases hlast : lastIndexOf? u a with
    | some i =>
      rw [hlast] at h
      cases h
    | none =>
      rw [hlast] at h
      simp only at h
      split at h
      · cases h
      · next hne => rw [List.count_cons_of_ne hne, ih hlast]

namespace Position

/-- The position behind one unit, which a line feed takes to the start of the next line. -/
def step (p : Position) (u : Nat) : Position :=
  if u = Text.lineFeed then ⟨p.offset + 1, p.line + 1, 0⟩ else ⟨p.offset + 1, p.line, p.column + 1⟩

@[simp] theorem advance_nil (p : Position) : p.advance [] = p := by
  simp [advance, Text.lastIndexOf?]

/-- The jump over a chunk begins with a step over its first unit. -/
theorem advance_cons (p : Position) (u : Nat) (a : List Nat) :
    p.advance (u :: a) = (p.step u).advance a := by
  unfold advance step
  rw [Text.lastIndexOf?]
  cases hlast : Text.lastIndexOf? Text.lineFeed a with
  | some i =>
    -- the column starts again further on, so the step leaves no trace in it
    by_cases hu : u = Text.lineFeed
    · simp only [hu, if_true, List.count_cons_self, List.length_cons, Position.mk.injEq]
      omega
    · simp only [hu, if_false, List.count_cons_of_ne hu, List.length_cons,
        Position.mk.injEq, true_and]
      omega
  | none =>
    have hcount := Text.count_of_lastIndexOf? hlast
    by_cases hu : u = Text.lineFeed
    · simp only [hu, if_true, List.count_cons_self, hcount, List.length_cons, Position.mk.injEq]
      omega
    · simp only [hu, if_false, List.length_cons, Position.mk.injEq, true_and]
      omega

/-- The position behind a chunk, counted unit by unit. -/
theorem advance_eq_foldl (p : Position) (a : List Nat) : p.advance a = a.foldl step p := by
  induction a generalizing p with
  | nil => exact p.advance_nil
  | cons u a ih => rw [advance_cons, ih, List.foldl_cons]

/-- Advancing over a chunk is advancing over its parts. -/
theorem advance_append (p : Position) (a b : List Nat) :
    p.advance (a ++ b) = (p.advance a).advance b := by
  simp only [advance_eq_foldl, List.foldl_append]

/-- Advancing over chunk after chunk is advancing over the text that they make up. -/
theorem foldl_advance (p : Position) (chunks : List (List Nat)) :
    chunks.foldl advance p = p.advance chunks.flatten := by
  induction chunks generalizing p with
  | nil => exact p.advance_nil.symm
  | cons chunk chunks ih => rw [List.foldl_cons, ih, List.flatten_cons, advance_append]

/-- **Advancing is an action.** From every position, nothing leads nowhere, two texts one after the
other lead where their concatenation does, and so do any chunks that a text is cut into, a carriage
return parted from its line feed among them. Where they lead is counted unit by unit: a line feed
adds one to offset and line and sets the column to zero, any other unit adds one to offset and
column. Text and bytes are counted alike. -/
theorem advance_acts (p : Position) :
    p.advance [] = p ∧
    (∀ a b : List Nat, p.advance (a ++ b) = (p.advance a).advance b) ∧
    (∀ chunks : List (List Nat), chunks.foldl advance p = p.advance chunks.flatten) ∧
    ∀ a : List Nat, p.advance a = a.foldl step p :=
  ⟨p.advance_nil, p.advance_append, p.foldl_advance, p.advance_eq_foldl⟩

example : (Position.advance {} [97, 13]).advance [10, 98] = ⟨4, 2, 1⟩ := by decide

end Position

/-! ## Trackers -/

/-- The position of `s`, counted from `origin`. -/
def Stream.positionFrom (origin s : Stream) : Position :=
  Position.advance {} (s.consumedSince origin)

/-- Counting on from a stream on the way gives the position counted from the origin. -/
theorem Stream.LeadsTo.positionFrom_eq {origin s t : Stream} (horigin : origin.InBounds)
    (hs : origin.LeadsTo s) (ht : s.LeadsTo t) :
    origin.positionFrom t = (origin.positionFrom s).advance (t.consumedSince s) := by
  have hle := ht.le_size
  rw [hs.source] at hle
  rw [positionFrom, positionFrom, ← Position.advance_append, consumedSince, consumedSince,
    consumedSince, ht.source,
    hs.source, origin.source.slice_append_slice horigin.nonneg hs.start_le ht.start_le hle]

namespace Tracker

/-- The tracker counts from `origin` and remembers the position of a stream ahead of it. -/
structure Accurate (origin : Stream) (t : Tracker) : Prop where
  origin_eq : t.origin = origin
  last : origin.LeadsTo t.last
  position_eq : t.position = origin.positionFrom t.last

variable {origin s : Stream} {t : Tracker}

theorem Accurate.start (h : origin.InBounds) : Accurate origin (.start origin) := by
  refine ⟨rfl, h.leadsTo_self, ?_⟩
  show ({} : Position) = Position.advance {} (origin.consumedSince origin)
  rw [origin.consumedSince_self, Position.advance_nil]

/-- **The tracker's answer.** Ahead of the remembered stream the count goes on from there, and
behind it the count starts again; both give the position counted from the origin. -/
theorem Accurate.locate_eq (horigin : origin.InBounds) (h : Accurate origin t)
    (hs : origin.LeadsTo s) :
    t.locate s = origin.positionFrom s := by
  rw [locate]
  split
  · -- the tracker lags behind: it counts on over what lies between
    next hahead =>
    have hlead : t.last.LeadsTo s := by
      refine ⟨hs.source.trans h.last.source.symm, hahead.2, ?_⟩
      rw [h.last.source]
      exact hs.le_size
    rw [h.position_eq, ← h.last.positionFrom_eq horigin hlead]
  · -- the tracker has run ahead: it counts again from its origin
    rw [h.origin_eq]
    rfl

theorem Accurate.moveTo (horigin : origin.InBounds) (h : Accurate origin t)
    (hs : origin.LeadsTo s) :
    Accurate origin (t.moveTo s) :=
  ⟨h.origin_eq, hs, h.locate_eq horigin hs⟩

end Tracker

end Descent
