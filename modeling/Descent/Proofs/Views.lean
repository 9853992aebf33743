import Descent.Proofs.Leaves

/-!
# Descent — a leaf knows its stream by its views

A leaf looks at its stream only through the views: the kind, the units ahead, whether a literal
stands there and how much is left. It never looks at its context. So the same leaf does the same at
two streams with the same views, in whatever two contexts, and each of the two runs stays in its own
stream and hands its own context on.

* **`Stream.Agrees`** — two streams with the same views. Inside their sources it is enough that the
  kind and what is left are the same (`Stream.InBounds.agrees`).
* **`Leaf.Alike`** — two runs of a leaf: at fault alike, failed where they stand, or advanced
  equally far with equal outputs.
* **`Leaf.alike_run`** — the runs of a leaf at two such streams, the position and custom functions
  apart.
-/

namespace Descent

/-! ## Equal views -/

structure Stream.Agrees (s t : Stream) : Prop where
  kind : s.kind = t.kind
  peek : ∀ n : Nat, s.peek n = t.peek n
  startsWith : ∀ literal, s.startsWith literal = t.startsWith literal
  length : s.length = t.length

namespace Stream

variable {s t : Stream}

theorem Agrees.refl (s : Stream) : s.Agrees s :=
  ⟨rfl, fun _ => rfl, fun _ => rfl, rfl⟩

/-- The next unit, as most leaves look at it. -/
theorem Agrees.peek_zero (h : s.Agrees t) : s.peek 0 = t.peek 0 :=
  h.peek 0

/-- The unit behind it, as escapes look at it. -/
theorem Agrees.peek_one (h : s.Agrees t) : s.peek 1 = t.peek 1 :=
  h.peek 1

theorem Agrees.isText (h : s.Agrees t) : s.isText = t.isText := by
  rw [Stream.isText, Stream.isText, h.kind]

/-- Inside their sources, streams of one kind that have the same left to read show the same. -/
theorem InBounds.agrees (hs : s.InBounds) (ht : t.InBounds) (hkind : s.kind = t.kind)
    (hrest : s.rest = t.rest) :
    s.Agrees t where
  kind := hkind
  peek n := by rw [hs.peek_eq, ht.peek_eq, hrest]
  startsWith literal := by
    rw [Bool.eq_iff_iff, hs.startsWith_iff, ht.startsWith_iff, hrest]
  length := by rw [hs.length_eq, ht.length_eq, hrest]

/-- Such streams have equally many blanks to skip. -/
theorem InBounds.skipBlanks_alike (hs : s.InBounds) (ht : t.InBounds) (hkind : s.kind = t.kind)
    (hrest : s.rest = t.rest) :
    ∃ n : Nat, n ≤ s.rest.length ∧ s.skipBlanks = .ok (s.advance n) ∧
      t.skipBlanks = .ok (t.advance n) := by
  have htext : s.isText = t.isText := (hs.agrees ht hkind hrest).isText
  cases hcase : t.isText with
  | true =>
    rw [hcase] at htext
    refine ⟨_, (List.takeWhile_prefix Text.isBlank).length_le, hs.skipBlanks_eq htext, ?_⟩
    rw [ht.skipBlanks_eq hcase, hrest]
  | false =>
    -- bytes have no blanks, so both stay where they are
    have hstay (u : Stream) (hu : u.isText = false) : u.skipBlanks = .ok (u.advance (0 : Nat)) := by
      have hadvance : u.advance (0 : Nat) = u := by simp [Stream.advance]
      rw [hadvance, skipBlanks, if_neg (by simp [hu])]
      rfl
    exact ⟨0, Nat.zero_le _, hstay s (htext.trans hcase), hstay t hcase⟩

end Stream

/-! ## Two runs of a leaf -/

namespace Leaf

/-- Two runs of a leaf, at `s` in `c` and at `t` in `d`. -/
inductive Alike (s t : Stream) (c d : Value) :
    Except Fault Result → Except Fault Result → Prop where
  | fault (f : Fault) : Alike s t c d (.error f) (.error f)
  | stay (e : Value) : Alike s t c d (.ok (.err s e c)) (.ok (.err t e d))
  | move (n : Int) (x : Value) :
      Alike s t c d (.ok (.ok (s.advance n) x c)) (.ok (.ok (t.advance n) x d))

variable {s t : Stream} {c d : Value}

/-- Both runs begin with the same computation. -/
theorem Alike.bind {α : Type} {first : Except Fault α} {next next' : α → Except Fault Result}
    (h : ∀ a, Alike s t c d (next a) (next' a)) :
    Alike s t c d (first >>= next) (first >>= next') := by
  cases first with
  | error f => exact .fault f
  | ok a => exact h a

theorem Alike.here (x : Value) : Alike s t c d (.ok (.ok s x c)) (.ok (.ok t x d)) := by
  have hmove := Alike.move (s := s) (t := t) (c := c) (d := d) 0 x
  simpa only [Stream.advance, Int.add_zero] using hmove

/-- The test looks at the kind and at the next unit. -/
theorem alike_matchUnit (h : s.Agrees t) (kind : Kind) (mem : Nat → Bool) (tag : Tag) :
    Alike s t c d (matchUnit kind mem tag s c) (matchUnit kind mem tag t d) := by
  rw [matchUnit, matchUnit, h.peek_zero, h.kind]
  refine .bind fun next => ?_
  cases next with
  | none => exact .stay _
  | some u =>
    simp only
    split
    · exact .move 1 _
    · exact .stay _

/-- The comparison looks at the kind and at what begins here, for each literal in turn. -/
theorem alike_matchLiteral (h : s.Agrees t) (kind : Kind) (tag : Tag) (literals : List (List Nat)) :
    Alike s t c d (.ok (matchLiteral kind tag s c literals))
      (.ok (matchLiteral kind tag t d literals)) := by
  induction literals with
  | nil => exact .stay _
  | cons literal literals ih =>
    rw [matchLiteral, matchLiteral, h.kind, h.startsWith]
    split
    · exact .move literal.length _
    · exact ih

/-- The callback is given the same element. -/
theorem alike_matchTest (h : s.Agrees t) (accepts : Value → Except Fault Bool) (error : Value) :
    Alike s t c d (matchTest accepts error s c) (matchTest accepts error t d) := by
  rw [matchTest, matchTest, h.peek_zero, h.kind]
  refine .bind fun next => ?_
  cases next with
  | none => exact .stay _
  | some u =>
    refine .bind fun accepted => ?_
    cases accepted with
    | true => exact .move 1 _
    | false => exact .stay _

/-- Whether the digit is of the wrong case is seen from the next unit. -/
theorem alike_matchHex (h : s.Agrees t) (case : HexCase) :
    Alike s t c d (matchHex case s c) (matchHex case t d) := by
  rw [matchHex, matchHex, h.peek_zero, h.isText]
  refine .bind fun next => ?_
  cases next with
  | none => exact .stay _
  | some u =>
    simp only
    split
    · split
      · exact .move 1 _
      · exact .stay _
    · exact .stay _

/-- Whether the control character is ahead is seen from the next unit. -/
theorem atControl_eq (h : s.Agrees t) (control : Nat) :
    atControl control s = atControl control t := by
  rw [atControl, atControl, h.peek_zero, h.isText]

/-- The entry is looked up for the unit behind the control character. -/
theorem alike_matchEntry (h : s.Agrees t) (control : Nat) (entries : List (Nat × Value)) :
    Alike s t c d (matchEntry control entries s c) (matchEntry control entries t d) := by
  rw [matchEntry, matchEntry, atControl_eq h, h.peek_one]
  refine .bind fun here => ?_
  cases here with
  | false => exact .stay _
  | true =>
    refine .bind fun next => ?_
    cases next.bind (meaningOf? · entries) with
    | none => exact .stay _
    | some v => exact .move 2 _

/-- The length is asked first, and it is the same on both sides. -/
theorem alike_matchDecoded (h : s.Agrees t) (control : Nat) (decode : Value → Except Fault Value) :
    Alike s t c d (matchDecoded control decode s c) (matchDecoded control decode t d) := by
  rw [matchDecoded, matchDecoded, atControl_eq h, h.peek_one, h.length, h.kind]
  refine .bind fun n => ?_
  split
  · exact .stay _
  · refine .bind fun here => ?_
    split
    · exact .stay _
    · refine .bind fun next => ?_
      cases next with
      | none => exact .stay _
      | some u =>
        refine .bind fun v => ?_
        cases v with
        | null => exact .stay _
        | _ => exact .move 2 _

/-- **A leaf knows its stream by its views.** Where these are equal, two runs of a leaf fail alike
or advance alike, each in its own stream and context. -/
theorem alike_run {l : Leaf} (hcustom : ∀ run, l ≠ .custom run) (hposition : l ≠ .position)
    (h : s.Agrees t) (c d : Value) : Alike s t c d (l.run s c) (l.run t d) := by
  cases l with
  | succeed v => exact .here v
  | fail e => exact .stay e
  | unit accepts error => exact alike_matchTest h accepts error
  | char cls => exact alike_matchUnit h _ _ _
  | hex case => exact alike_matchHex h case
  | string literal => exact alike_matchLiteral h _ _ _
  | crlf => exact alike_matchLiteral h _ _ _
  | linebreak => exact alike_matchLiteral h _ _ _
  | byte cls => exact alike_matchUnit h _ _ _
  | slice literal => exact alike_matchLiteral h _ _ _
  | escapedWith control entries => exact alike_matchEntry h control entries
  | escapedBy control decode => exact alike_matchDecoded h control decode
  | endOfInput =>
    -- whether it is the end is told by the length
    rw [Leaf.run, Leaf.run, h.length]
    refine .bind fun n => ?_
    split
    · exact .here .null
    · exact .stay _
  | position => exact absurd rfl hposition
  | custom run => exact absurd rfl (hcustom run)

/-- Two such runs are coupled wherever streams that are advanced equally far are. -/
theorem Alike.excepts {σ τ : Type} {K : Coupling σ τ} {x y : Except Fault Result}
    (h : Alike s t c d x y) (hfault : ∀ f, K.stop (.fault f) (.fault f))
    (houtput : ∀ v, K.output v v) (herror : ∀ v, K.error v v) (hs : K.stream s t)
    (hc : K.context c d)
    (hmove : ∀ n v, x = .ok (.ok (s.advance n) v c) → K.stream (s.advance n) (t.advance n)) :
    K.Excepts K.Results x y := by
  cases h with
  | fault f => exact .error (hfault f)
  | stay e => exact .ok (.err hs (herror e) hc)
  | move n v => exact .ok (.ok (hmove n v rfl) (houtput v) hc)

end Leaf

end Descent
