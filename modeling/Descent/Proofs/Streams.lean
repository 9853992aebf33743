import Descent.Rule.Trim
import Mathlib.Data.List.TakeDrop

/-!
# Descent — streams and their views

A stream's offset may be any integer. Where it is a place in the source, every view of the stream is
a view of the list of units that are left: this module states each of them so. A slice reads any
other offset as the place that it is clamped to, and so do the views that are slices; a literal does
the same in front of the end and stands nowhere behind it.

* **`Stream.InBounds`** — the offset is a place in the source, its end included.
* **`Stream.LeadsTo`** — one stream lies further on in the same source than another; what lies
  between the two, put in front of what the second has left, is what the first has left.
* **`Stream.views_agree`** — the views of a stream with any offset, each told by what is left.
-/

namespace Descent

/-! ## Slices -/

/-- A list from `a` on, cut at `b`. -/
theorem take_drop_append_drop {α : Type} (l : List α) {a b : Nat} (h : a ≤ b) :
    (l.take b).drop a ++ l.drop b = l.drop a := by
  obtain ⟨n, rfl⟩ := Nat.exists_eq_add_of_le h
  rw [List.drop_take, Nat.add_sub_cancel_left, List.drop_take_append_drop]

namespace Source

theorem length_units (src : Source) : src.units.toList.length = src.size :=
  Array.length_toList

theorem bound_le_size (src : Source) (i : Int) : src.bound i ≤ src.size := by
  unfold bound
  split <;> omega

/-- An index into the source is taken as it is. -/
theorem bound_eq_toNat (src : Source) {i : Int} (hi : 0 ≤ i) (hsize : i ≤ src.size) :
    src.bound i = i.toNat := by
  unfold bound
  split <;> omega

/-- A slice to the end leaves out what lies in front of its bound. -/
theorem sliceFrom_eq_drop (src : Source) (i : Int) :
    src.sliceFrom i = src.units.toList.drop (src.bound i) := by
  have hlen := src.length_units
  rw [sliceFrom, Array.toList_extract, List.extract_eq_take_drop, ← List.drop_take,
    List.take_of_length_le (by omega)]

/-- A slice is what lies between its bounds. -/
theorem slice_eq_drop_take (src : Source) (i j : Int) :
    src.slice i j = (src.units.toList.take (src.bound j)).drop (src.bound i) := by
  rw [slice, Array.toList_extract, List.extract_eq_take_drop, List.drop_take]

/-- A slice from an index that is not negative drops so many units, past the end too. -/
theorem sliceFrom_eq (src : Source) {a : Int} (ha : 0 ≤ a) :
    src.sliceFrom a = src.units.toList.drop a.toNat := by
  have hlen := src.length_units
  rw [sliceFrom_eq_drop]
  by_cases hsize : a ≤ src.size
  · rw [src.bound_eq_toNat ha hsize]
  · have hbound : src.bound a = src.size := by
      unfold bound
      split <;> omega
    rw [hbound, List.drop_eq_nil_of_le (by omega), List.drop_eq_nil_of_le (by omega)]

/-- For ordered bounds in the source, a slice is a part of the list of units. -/
theorem slice_eq (src : Source) {a b : Int} (ha : 0 ≤ a) (hab : a ≤ b) (hb : b ≤ src.size) :
    src.slice a b = (src.units.toList.take b.toNat).drop a.toNat := by
  rw [slice_eq_drop_take, src.bound_eq_toNat ha (by omega), src.bound_eq_toNat (by omega) hb]

/-- Neighbouring slices put together. -/
theorem slice_append_slice (src : Source) {a b c : Int} (ha : 0 ≤ a) (hab : a ≤ b) (hbc : b ≤ c)
    (hc : c ≤ src.size) :
    src.slice a b ++ src.slice b c = src.slice a c := by
  rw [src.slice_eq ha hab (by omega), src.slice_eq (by omega) hbc hc, src.slice_eq ha (by omega) hc]
  have htake : src.units.toList.take b.toNat = (src.units.toList.take c.toNat).take b.toNat := by
    rw [List.take_take, Nat.min_eq_left (by omega)]
  rw [htake]
  exact take_drop_append_drop _ (by omega)

/-- A slice and all that follows its stop make up all that follows its start, exactly where its
bounds are in order. -/
theorem slice_append_sliceFrom_iff (src : Source) (a b : Int) :
    src.slice a b ++ src.sliceFrom b = src.sliceFrom a ↔ src.bound a ≤ src.bound b := by
  have hlen := src.length_units
  have hsize := src.bound_le_size a
  rw [slice_eq_drop_take, sliceFrom_eq_drop, sliceFrom_eq_drop]
  constructor
  · -- out of order the slice would be empty, and more follows its stop than its start
    intro h
    have hlength := congrArg List.length h
    simp only [List.length_append, List.length_drop, List.length_take, hlen] at hlength
    omega
  · exact take_drop_append_drop _

/-- A slice and what follows it are the slice to the end. -/
theorem slice_append_sliceFrom (src : Source) {a b : Int} (ha : 0 ≤ a) (hab : a ≤ b)
    (hb : b ≤ src.size) :
    src.slice a b ++ src.sliceFrom b = src.sliceFrom a := by
  apply (src.slice_append_sliceFrom_iff a b).mpr
  rw [src.bound_eq_toNat ha (by omega), src.bound_eq_toNat (by omega) hb]
  omega

end Source

namespace Stream

/-! ## Views of what is left -/

/-- The offset is a place in the source. -/
structure InBounds (s : Stream) : Prop where
  nonneg : 0 ≤ s.offset
  le_size : s.offset ≤ s.source.size

variable {s t u : Stream}

/-- Inside its source a stream reads what is left when the units before are dropped. -/
theorem InBounds.rest_eq (hs : s.InBounds) : s.rest = s.source.units.toList.drop s.offset.toNat :=
  s.source.sliceFrom_eq hs.nonneg

theorem InBounds.length_rest (hs : s.InBounds) :
    (s.rest.length : Int) = s.source.size - s.offset := by
  have hsize := s.source.length_units
  have hnonneg := hs.nonneg
  have hle := hs.le_size
  rw [hs.rest_eq, List.length_drop, hsize]
  omega

/-- To peek inside the source is to look at the rest, and never raises. -/
theorem InBounds.peek_eq (hs : s.InBounds) (n : Nat) : s.peek n = .ok s.rest[n]? := by
  have hnonneg := hs.nonneg
  have hindex : (s.offset + n).toNat = s.offset.toNat + n := by omega
  rw [hs.rest_eq, List.getElem?_drop, Array.getElem?_toList, peek]
  split
  · next hend =>
    rw [Array.getElem?_eq_none]
    show s.source.size ≤ _
    omega
  · rw [if_pos (by omega), hindex]

theorem InBounds.peek_zero (hs : s.InBounds) : s.peek 0 = .ok s.rest[0]? :=
  hs.peek_eq 0

theorem InBounds.peek_one (hs : s.InBounds) : s.peek 1 = .ok s.rest[1]? :=
  hs.peek_eq 1

/-- The `n` units ahead are there, so the stream may advance over them. -/
theorem InBounds.advance (hs : s.InBounds) {n : Nat} (hn : n ≤ s.rest.length) :
    (s.advance n).InBounds := by
  have hlen := hs.length_rest
  have hnonneg := hs.nonneg
  constructor
  · show 0 ≤ s.offset + n
    omega
  · show s.offset + n ≤ s.source.size
    omega

/-- Inside a source, the length is that of what is left, unless a machine word cannot hold it. -/
theorem InBounds.length_eq (hs : s.InBounds) :
    s.length = if maxWord < s.rest.length then .error .lengthTooLarge else .ok s.rest.length := by
  have hlen := hs.length_rest
  rw [length, ← hlen, if_neg (by omega)]

/-- Up to the end a literal is looked for at the place that a slice would begin at. -/
theorem startsWith_iff_of_le {s : Stream} (hend : s.offset ≤ s.source.size) (literal : List Nat) :
    s.startsWith literal = true ↔ literal <+: s.rest := by
  have hstart : (if s.offset < 0 then (s.offset + s.source.size).toNat else s.offset.toNat) =
      s.source.bound s.offset := by
    unfold Source.bound
    split <;> omega
  have hle := s.source.bound_le_size s.offset
  rw [startsWith, hstart, Bool.and_eq_true, decide_eq_true_iff, decide_eq_true_iff,
    Array.toList_extract,
    List.extract_eq_take_drop, Nat.add_sub_cancel_left, rest, s.source.sliceFrom_eq_drop,
      List.prefix_iff_eq_take]
  exact ⟨fun h => h.2.symm, fun h => ⟨hle, h.symm⟩⟩

/-- Behind the end stands no literal, not even the empty one. -/
theorem startsWith_of_lt {s : Stream} (hend : s.source.size < s.offset) (literal : List Nat) :
    s.startsWith literal = false := by
  have hstart : ¬ s.offset.toNat ≤ s.source.size := by omega
  rw [startsWith, if_neg (by omega), decide_eq_false hstart, Bool.false_and]

/-- Past the end nothing is read, not even the empty text. -/
theorem startsWith_iff (s : Stream) (literal : List Nat) :
    s.startsWith literal = true ↔ s.offset ≤ s.source.size ∧ literal <+: s.rest := by
  by_cases hend : s.offset ≤ s.source.size
  · rw [startsWith_iff_of_le hend, and_iff_right hend]
  · rw [startsWith_of_lt (by omega)]
    simp [hend]

theorem InBounds.startsWith_iff (hs : s.InBounds) (literal : List Nat) :
    s.startsWith literal = true ↔ literal <+: s.rest :=
  startsWith_iff_of_le hs.le_size literal

/-! ## Blanks -/

/-- The scan of blanks, from any place on and with any fuel. -/
theorem InBounds.blanksFrom_eq (hs : s.InBounds) (fuel ahead : Nat) :
    s.blanksFrom fuel ahead =
      .ok (ahead + (((s.rest.drop ahead).take fuel).takeWhile Text.isBlank).length) := by
  induction fuel generalizing ahead with
  | zero => rfl
  | succ fuel ih =>
    rw [blanksFrom, hs.peek_eq]
    cases hhead : s.rest[ahead]? with
    | none =>
      -- the text has ended, and no blank is left
      rw [List.drop_eq_nil_of_le (List.getElem?_eq_none_iff.mp hhead)]
      rfl
    | some u =>
      obtain ⟨hlt, hu⟩ := List.getElem?_eq_some_iff.mp hhead
      rw [List.drop_eq_getElem_cons hlt, hu, List.take_succ_cons]
      -- one blank is counted and the others follow, or the count ends here
      show (if Text.isBlank u then s.blanksFrom fuel (ahead + 1) else pure ahead) = _
      by_cases hblank : Text.isBlank u = true
      · rw [if_pos hblank, ih, List.takeWhile_cons_of_pos hblank, List.length_cons]
        congr 1
        omega
      · rw [if_neg hblank, List.takeWhile_cons_of_neg hblank]
        rfl

/-- In a text, exactly the leading blanks are skipped. -/
theorem InBounds.skipBlanks_eq (hs : s.InBounds) (htext : s.isText = true) :
    s.skipBlanks = .ok (s.advance (s.rest.takeWhile Text.isBlank).length) := by
  have hlen := hs.length_rest
  have hfuel : (s.source.size - s.offset).toNat = s.rest.length := by omega
  rw [skipBlanks, if_pos htext, hfuel, hs.blanksFrom_eq, List.drop_zero,
    List.take_length, Nat.zero_add]
  rfl

/-! ## From one stream to another -/

/-- The second stream lies further on in the source of the first. -/
structure LeadsTo (s t : Stream) : Prop where
  source : t.source = s.source
  start_le : s.offset ≤ t.offset
  le_size : t.offset ≤ s.source.size

theorem InBounds.leadsTo_self (hs : s.InBounds) : s.LeadsTo s :=
  ⟨rfl, Int.le_refl _, hs.le_size⟩

/-- Streams inside their source lead to streams inside it. -/
theorem LeadsTo.inBounds (hs : s.InBounds) (h : s.LeadsTo t) : t.InBounds :=
  ⟨Int.le_trans hs.nonneg h.start_le, h.source ▸ h.le_size⟩

theorem LeadsTo.trans (h : s.LeadsTo t) (h' : t.LeadsTo u) : s.LeadsTo u :=
  ⟨h'.source.trans h.source, Int.le_trans h.start_le h'.start_le, h.source ▸ h'.le_size⟩

/-- To advance by no more than the rest stays inside the source. -/
theorem InBounds.leadsTo_advance (hs : s.InBounds) {n : Nat} (hn : n ≤ s.rest.length) :
    s.LeadsTo (s.advance n) := by
  refine ⟨rfl, ?_, (hs.advance hn).le_size⟩
  show s.offset ≤ s.offset + n
  omega

/-- What lies between two streams of one source, in whichever order they are; backwards it is
nothing. -/
theorem InBounds.consumedSince_eq (hs : s.InBounds) (ht : t.InBounds)
    (hsource : t.source = s.source) :
    t.consumedSince s = s.rest.take (t.offset - s.offset).toNat := by
  have hnonneg := hs.nonneg
  have hnonneg' := ht.nonneg
  have hle := ht.le_size
  rw [hsource] at hle
  have hcount : t.offset.toNat - s.offset.toNat = (t.offset - s.offset).toNat := by omega
  rw [consumedSince, hsource, Source.slice_eq_drop_take, Source.bound_eq_toNat _ hnonneg hs.le_size,
    Source.bound_eq_toNat _ hnonneg' hle, List.drop_take, hcount, hs.rest_eq]

theorem consumedSince_self (s : Stream) : s.consumedSince s = [] := by
  rw [consumedSince, Source.slice_eq_drop_take]
  exact List.drop_eq_nil_of_le (List.length_take_le _ _)

/-- Nothing is lost between two streams. -/
theorem LeadsTo.consumedSince_append_rest (hs : s.InBounds) (h : s.LeadsTo t) :
    t.consumedSince s ++ t.rest = s.rest := by
  rw [consumedSince, rest, rest, h.source]
  exact s.source.slice_append_sliceFrom hs.nonneg h.start_le h.le_size

/-- Blanks are skipped no further than to the end. -/
theorem InBounds.leadsTo_skipBlanks (hs : s.InBounds) (h : s.skipBlanks = .ok t) : s.LeadsTo t := by
  by_cases htext : s.isText = true
  · rw [hs.skipBlanks_eq htext] at h
    cases h
    exact hs.leadsTo_advance (List.takeWhile_prefix _).length_le
  · rw [skipBlanks, if_neg htext] at h
    cases h
    exact hs.leadsTo_self

/-! ## Any offset -/

/-- **The views agree.** Let a stream have any offset, negative or past the end. A literal stands at
it if and only if the offset is not past the end and what is left begins with the literal. For a
second stream on the source, what was consumed from the first to the second, followed by what the
second has left, is what the first has left, if and only if their offsets are in order as slice
bounds: negative ones counted from the end, and all clamped to the source. And where the offset is a
place in the source, the length is that of what is left, as far as a machine word goes, and looking
ahead reads what is left unit by unit and finds none exactly where that ends. -/
theorem views_agree (s : Stream) :
    (∀ literal, s.startsWith literal = true ↔ s.offset ≤ s.source.size ∧ literal <+: s.rest) ∧
    (∀ t : Stream, t.source = s.source →
      (t.consumedSince s ++ t.rest = s.rest ↔ s.source.bound s.offset ≤ s.source.bound t.offset)) ∧
    (0 ≤ s.offset → s.offset ≤ s.source.size →
      s.length = (if maxWord < s.rest.length then .error .lengthTooLarge else .ok s.rest.length) ∧
      ∀ n : Nat, s.peek n = .ok s.rest[n]? ∧ (s.peek n = .ok none ↔ s.rest.length ≤ n)) := by
  refine ⟨s.startsWith_iff, fun t hsource => ?_, fun hnonneg hle => ?_⟩
  · rw [consumedSince, rest, rest, hsource]
    exact s.source.slice_append_sliceFrom_iff s.offset t.offset
  · have hs : s.InBounds := ⟨hnonneg, hle⟩
    refine ⟨hs.length_eq, fun n => ⟨hs.peek_eq n, ?_⟩⟩
    rw [hs.peek_eq, Except.ok.injEq, List.getElem?_eq_none_iff]

/-- Four streams on the text `abc`: two characters in front of its end, before its start, behind its
end, and on its second character. -/
theorem views_agree_around_end :
    let src : Source := ⟨0, .text, #[97, 98, 99]⟩
    let s (o : Int) : Stream := ⟨src, o⟩
    (s (-2)).startsWith [98, 99] = true ∧ (s 4).startsWith [] = false ∧
      (s 4).consumedSince (s (-2)) ++ (s 4).rest = (s (-2)).rest ∧
      (s (-5)).consumedSince (s (-2)) ++ (s (-5)).rest ≠ (s (-2)).rest ∧
      (s 1).length = .ok 2 ∧ (s 1).peek 1 = .ok (some 99) ∧ (s 1).peek 2 = .ok none := by
  intro src s
  obtain ⟨hliteral, hbetween, -⟩ := views_agree (s (-2))
  obtain ⟨hpast, -, -⟩ := views_agree (s 4)
  obtain ⟨-, -, hinside⟩ := views_agree (s 1)
  obtain ⟨hlength, hpeek⟩ := hinside (by decide) (by decide)
  refine ⟨(hliteral _).mpr ⟨by decide, by decide⟩, ?_,
    (hbetween (s 4) rfl).mpr (by decide), ?_, hlength, (hpeek 1).1, (hpeek 2).2.mpr (by decide)⟩
  · rw [← Bool.not_eq_true, hpast]
    rintro ⟨hend, -⟩
    exact absurd hend (by decide)
  · intro h
    exact absurd ((hbetween (s (-5)) rfl).mp h) (by decide)

end Stream

end Descent
