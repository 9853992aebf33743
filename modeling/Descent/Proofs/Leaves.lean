import Descent.Proofs.Palette
import Descent.Proofs.Streams

/-!
# Descent — what a leaf can do

A leaf has two ends: it fails at the very stream it was given, or it succeeds further on. Either way
the context it hands on is the one it was given, unless the leaf asks for the position.

* **`Leaf.Steps`** — the two ends.
* **`Leaf.steps_run`** — every leaf ends in one of them, the position and custom functions apart.
* **`Palette.library`** — all leaves and operations but those given as functions on streams or
  contexts.
-/

namespace Descent

/-- All leaves and operations, but for those that are given as functions on streams or contexts. -/
def Palette.library : Palette where
  leaf l := ∀ run, l ≠ .custom run
  unary op := ∀ hook, op ≠ .hooked hook
  fault _ := True

namespace Leaf

/-- What a leaf that is run at `s` in `c` may end with. -/
inductive Steps (s : Stream) (c : Value) : Result → Prop where
  | stay {e : Value} : Steps s c (.err s e c)
  | move {t : Stream} {x : Value} (h : s.LeadsTo t) : Steps s c (.ok t x c)

variable {s : Stream} {c : Value} {r : Result}

/-- In either case the stream lies in the source still. -/
theorem Steps.leadsTo (hs : s.InBounds) (h : Steps s c r) : s.LeadsTo r.stream := by
  cases h with
  | stay => exact hs.leadsTo_self
  | move h => exact h

/-! ## The matchers -/

/-- A unit of the set is taken, or nothing. -/
theorem steps_matchUnit (hs : s.InBounds) {kind : Kind} {mem : Nat → Bool} {tag : Tag}
    (h : matchUnit kind mem tag s c = .ok r) : Steps s c r := by
  rw [matchUnit, hs.peek_zero] at h
  cases hrest : s.rest with
  | nil =>
    rw [hrest] at h
    cases h
    exact .stay
  | cons u rest =>
    rw [hrest] at h
    change (if s.kind = kind && mem u then Except.ok (Result.ok (s.advance 1) (.ofUnit kind u) c)
      else .ok (.err s (.tag tag) c)) = .ok r at h
    split at h
    · cases h
      exact .move (hs.leadsTo_advance (n := 1) (by simp [hrest]))
    · cases h
      exact .stay

/-- The first literal that is there is taken. -/
theorem steps_matchLiteral (hs : s.InBounds) {kind : Kind} {tag : Tag}
    (literals : List (List Nat)) :
    Steps s c (matchLiteral kind tag s c literals) := by
  induction literals with
  | nil => exact .stay
  | cons literal literals ih =>
    rw [matchLiteral]
    split
    · next hmatch =>
      have hprefix := (hs.startsWith_iff literal).mp (Bool.and_eq_true_iff.mp hmatch).2
      exact .move (hs.leadsTo_advance hprefix.length_le)
    · exact ih

/-- A unit is shown to the function, which may raise. -/
theorem steps_matchTest (hs : s.InBounds) {accepts : Value → Except Fault Bool} {error : Value}
    (h : matchTest accepts error s c = .ok r) : Steps s c r := by
  rw [matchTest, hs.peek_zero] at h
  cases hrest : s.rest with
  | nil =>
    rw [hrest] at h
    cases h
    exact .stay
  | cons u rest =>
    rw [hrest] at h
    obtain ⟨accepted, _, h⟩ : ∃ b, accepts (.ofUnit s.kind u) = .ok b ∧
        (if b = true then Except.ok (Result.ok (s.advance 1) (.ofUnit s.kind u) c)
          else .ok (.err s error c)) = .ok r :=
      ok_of_bind h
    cases accepted with
    | true =>
      cases h
      exact .move (hs.leadsTo_advance (n := 1) (by simp [hrest]))
    | false =>
      cases h
      exact .stay

/-- A digit of one of the cases is taken, or nothing. -/
theorem steps_matchHex (hs : s.InBounds) {case : HexCase} (h : matchHex case s c = .ok r) :
    Steps s c r := by
  rw [matchHex, hs.peek_zero] at h
  cases hrest : s.rest with
  | nil =>
    rw [hrest] at h
    cases h
    exact .stay
  | cons u rest =>
    rw [hrest] at h
    change (if s.isText then
        if case.mem u then Except.ok (Result.ok (s.advance 1) (.text [u]) c)
          else .ok (.err s (.tag (HexCase.tagAt u)) c)
      else .ok (.err s (.tag .hex) c)) = .ok r at h
    split at h
    · split at h
      · cases h
        exact .move (hs.leadsTo_advance (n := 1) (by simp [hrest]))
      · cases h
        exact .stay
    · cases h
      exact .stay

/-- Where the unit after the next is there, so is the next. -/
theorem leadsTo_advance_two (hs : s.InBounds) {u : Nat} (h : s.rest[1]? = some u) :
    s.LeadsTo (s.advance 2) := by
  obtain ⟨hlt, _⟩ := List.getElem?_eq_some_iff.mp h
  exact hs.leadsTo_advance (n := 2) hlt

theorem steps_matchEntry (hs : s.InBounds) {control : Nat} {entries : List (Nat × Value)}
    (h : matchEntry control entries s c = .ok r) : Steps s c r := by
  rw [matchEntry] at h
  obtain ⟨here, _, h⟩ := ok_of_bind h
  cases here with
  | false =>
    cases h
    exact .stay
  | true =>
    obtain ⟨next, hnext, h⟩ := ok_of_bind h
    rw [hs.peek_one] at hnext
    cases hnext
    split at h
    · next v hv =>
      -- a meaning was found, so there was a unit behind the control character
      cases h
      obtain ⟨u, hu, _⟩ := Option.bind_eq_some_iff.mp hv
      exact .move (leadsTo_advance_two hs hu)
    · cases h
      exact .stay

theorem steps_matchDecoded (hs : s.InBounds) {control : Nat} {decode : Value → Except Fault Value}
    (h : matchDecoded control decode s c = .ok r) : Steps s c r := by
  rw [matchDecoded] at h
  obtain ⟨n, _, h⟩ := ok_of_bind h
  split at h
  · cases h
    exact .stay
  · obtain ⟨here, _, h⟩ := ok_of_bind h
    split at h
    · cases h
      exact .stay
    · obtain ⟨next, hnext, h⟩ := ok_of_bind h
      -- behind the control character, the next unit is shown to the function
      rw [hs.peek_one] at hnext
      cases hnext
      split at h
      · cases h
        exact .stay
      · next u hu =>
        obtain ⟨v, _, h⟩ := ok_of_bind h
        split at h
        · cases h
          exact .stay
        · cases h
          exact .move (leadsTo_advance_two hs hu)

/-! ## The leaves -/

/-- A leaf fails where it stands, or it advances over units that are there. -/
theorem steps_run {l : Leaf} (hcustom : ∀ run, l ≠ .custom run) (hposition : l ≠ .position)
    (hs : s.InBounds) (h : l.run s c = .ok r) : Steps s c r := by
  cases l with
  | succeed v =>
    cases h
    exact .move hs.leadsTo_self
  | fail e =>
    cases h
    exact .stay
  | unit accepts error => exact steps_matchTest hs h
  | char cls => exact steps_matchUnit hs h
  | hex case => exact steps_matchHex hs h
  | string literal =>
    cases h
    exact steps_matchLiteral hs _
  | crlf =>
    cases h
    exact steps_matchLiteral hs _
  | linebreak =>
    cases h
    exact steps_matchLiteral hs _
  | byte cls => exact steps_matchUnit hs h
  | slice literal =>
    cases h
    exact steps_matchLiteral hs _
  | escapedWith control entries => exact steps_matchEntry hs h
  | escapedBy control decode => exact steps_matchDecoded hs h
  | endOfInput =>
    -- the end is no unit, so the stream stays where it is
    obtain ⟨n, _, h⟩ := ok_of_bind h
    split at h
    · cases h
      exact .move hs.leadsTo_self
    · cases h
      exact .stay
  | position => exact absurd rfl hposition
  | custom run => exact absurd rfl (hcustom run)

/-- Where there is no tracker, the position is missing. -/
theorem position_of_none (h : Rule.trackerOf? c = .ok none) (s : Stream) :
    Rule.position s c = .ok (.err s (.tag .missingPositionContext) c) := by
  rw [Rule.position, h]
  rfl

/-- A tracker answers, and moves on to where it was asked. -/
theorem position_of_tracker {t : Tracker} (h : Rule.trackerOf? c = .ok (some t)) (s : Stream) :
    Rule.position s c =
      .ok (.ok s (.position (t.locate s)) (Rule.withTracker (t.moveTo s) c)) := by
  rw [Rule.position, h]
  rfl

/-- What is no tracker cannot be asked. -/
theorem position_of_foreign {f : Fault} (h : Rule.trackerOf? c = .error f) (s : Stream) :
    Rule.position s c = .error f := by
  rw [Rule.position, h]
  rfl

/-- The three ends of asking for a position: the context has no tracker, the tracker answers and
moves on, or what the context holds is no tracker. -/
theorem position_cases (s : Stream) (c : Value) :
    (Rule.trackerOf? c = .ok none ∧
      Rule.position s c = .ok (.err s (.tag .missingPositionContext) c)) ∨
    (∃ t, Rule.trackerOf? c = .ok (some t) ∧
      Rule.position s c = .ok (.ok s (.position (t.locate s)) (Rule.withTracker (t.moveTo s) c))) ∨
    ∃ f, Rule.trackerOf? c = .error f ∧ Rule.position s c = .error f := by
  cases h : Rule.trackerOf? c with
  | error f => exact .inr (.inr ⟨f, rfl, position_of_foreign h s⟩)
  | ok t? =>
    cases t? with
    | none => exact .inl ⟨rfl, position_of_none h s⟩
    | some t => exact .inr (.inl ⟨t, rfl, position_of_tracker h s⟩)

/-- The position leaf stays where it is. -/
theorem stream_position (h : Rule.position s c = .ok r) : r.stream = s := by
  obtain ⟨-, hposition⟩ | ⟨t, -, hposition⟩ | ⟨f, -, hposition⟩ := position_cases s c
  · rw [hposition] at h
    cases h
    rfl
  · rw [hposition] at h
    cases h
    rfl
  · rw [hposition] at h
    cases h

/-- Every leaf leads on, custom functions apart; the position stays where it is asked for. -/
theorem leadsTo_run {l : Leaf} (hcustom : ∀ run, l ≠ .custom run) (hs : s.InBounds)
    (h : l.run s c = .ok r) :
    s.LeadsTo r.stream := by
  by_cases hposition : l = .position
  · rw [hposition] at h
    rw [stream_position h]
    exact hs.leadsTo_self
  · exact (steps_run hcustom hposition hs h).leadsTo hs

end Leaf

end Descent
