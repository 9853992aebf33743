import Descent.Call
import Descent.Proofs.Tracking
import Descent.Proofs.Views

/-!
# Descent — parsing depends on what is left to read

A parser that starts in the middle of a source does what it would do on a source that begins there.
Offsets are absolute, but every view of a stream, and every count of a position, is a matter of
differences, so that a shift of all offsets cancels. What was read before the start is never looked
at.

* **`Stream.Abreast`** — two streams equally far behind two starts. Where the starts have the same
  units left, so have the two streams (`Stream.Abreast.rest_eq`), and the units between two such
  pairs are the same (`Stream.Abreast.consumedSince_eq`).
* **`Tracker.Abreast`** — two trackers with one position and such streams; they give the same
  answers.
* **`Coupling.abreast`** — two runs from the two starts.
* **`Grammar.Over.depends_on_rest`** — the statement for whole parsers without traces, which tell
  absolute offsets.
-/

namespace Descent

/-! ## Streams abreast -/

namespace Stream

/-- What is left further on is what is left here, less the units in between. -/
theorem LeadsTo.rest_eq_drop {s t : Stream} (hs : s.InBounds) (h : s.LeadsTo t) :
    t.rest = s.rest.drop (t.offset - s.offset).toNat := by
  have hnonneg := hs.nonneg
  have hle := h.start_le
  have hoffset : t.offset.toNat = s.offset.toNat + (t.offset - s.offset).toNat := by omega
  rw [(h.inBounds hs).rest_eq, hs.rest_eq, h.source, List.drop_drop, hoffset]

/-- Two starts, in whatever sources, from which the same units are left, be they characters or
bytes. -/
structure Level (s₀ t₀ : Stream) : Prop where
  left : s₀.InBounds
  right : t₀.InBounds
  rest : s₀.rest = t₀.rest

/-- Two starts, in whatever sources, from which there is the same to read. -/
structure Twins (s₀ t₀ : Stream) : Prop where
  left : s₀.InBounds
  right : t₀.InBounds
  kind : s₀.kind = t₀.kind
  rest : s₀.rest = t₀.rest

/-- Two streams that lie equally far behind `s₀` and `t₀`. -/
structure Abreast (s₀ t₀ s t : Stream) : Prop where
  left : s₀.LeadsTo s
  right : t₀.LeadsTo t
  offset : s.offset - s₀.offset = t.offset - t₀.offset

variable {s₀ t₀ s t a b : Stream}

theorem Level.abreast (h₀ : s₀.Level t₀) : s₀.Abreast t₀ s₀ t₀ :=
  ⟨h₀.left.leadsTo_self, h₀.right.leadsTo_self, by omega⟩

/-- Twins have as much left as each other, so that they are level. -/
theorem Twins.level (h₀ : s₀.Twins t₀) : s₀.Level t₀ :=
  ⟨h₀.left, h₀.right, h₀.rest⟩

/-- So twins are abreast of each other. -/
theorem Twins.abreast (h₀ : s₀.Twins t₀) : s₀.Abreast t₀ s₀ t₀ :=
  h₀.level.abreast

namespace Abreast

/-- Both sources are of one kind, and no stream changes its source. -/
theorem kind_eq (h₀ : s₀.Twins t₀) (h : s₀.Abreast t₀ s t) : s.kind = t.kind := by
  rw [kind, kind, h.left.source, h.right.source]
  exact h₀.kind

/-- Streams abreast have the same left, since the units in front of them are as many and what
followed those was the same. -/
theorem rest_eq (h₀ : s₀.Level t₀) (h : s₀.Abreast t₀ s t) : s.rest = t.rest := by
  rw [h.left.rest_eq_drop h₀.left, h.right.rest_eq_drop h₀.right, h₀.rest, h.offset]

/-- So every view of one stream is that of the other. -/
theorem agrees (h₀ : s₀.Twins t₀) (h : s₀.Abreast t₀ s t) : s.Agrees t :=
  (h.left.inBounds h₀.left).agrees (h.right.inBounds h₀.right) (h.kind_eq h₀) (h.rest_eq h₀.level)

/-- Streams abreast are equal for a comparison that looks at what is left and not at the source. -/
theorem equal (h₀ : s₀.Twins t₀) (h : s₀.Abreast t₀ s t) : s.equal t = true := by
  rw [Stream.equal, h.kind_eq h₀, h.rest_eq h₀.level]
  simp

/-- Both streams go on equally far, and if one stays inside its source so does the other. -/
theorem advance (h₀ : s₀.Level t₀) (h : s₀.Abreast t₀ s t) {n : Int}
    (hn : s.LeadsTo (s.advance n)) :
    s₀.Abreast t₀ (s.advance n) (t.advance n) := by
  have hs := (h.left.inBounds h₀.left).length_rest
  have ht := (h.right.inBounds h₀.right).length_rest
  have hoffset := h.offset
  have hsize : s.offset + n ≤ s.source.size := hn.le_size
  have hnonneg : s.offset ≤ s.offset + n := hn.start_le
  rw [h.rest_eq h₀] at hs
  refine ⟨h.left.trans hn, h.right.trans ⟨rfl, ?_, ?_⟩, ?_⟩
  · show t.offset ≤ t.offset + n
    omega
  · show t.offset + n ≤ t.source.size
    omega
  · show s.offset + n - s₀.offset = t.offset + n - t₀.offset
    omega

/-- What was consumed between two places is the same on both sides, also where the second place is
further back. -/
theorem consumedSince_eq (h₀ : s₀.Level t₀) (hab : s₀.Abreast t₀ a b) (h : s₀.Abreast t₀ s t) :
    s.consumedSince a = t.consumedSince b := by
  have hleft : s.source = a.source := h.left.source.trans hab.left.source.symm
  have hright : t.source = b.source := h.right.source.trans hab.right.source.symm
  have hoffset : s.offset - a.offset = t.offset - b.offset := by
    have hs := h.offset
    have ha := hab.offset
    omega
  rw [(hab.left.inBounds h₀.left).consumedSince_eq (h.left.inBounds h₀.left) hleft,
    (hab.right.inBounds h₀.right).consumedSince_eq (h.right.inBounds h₀.right) hright,
      hab.rest_eq h₀, hoffset]

end Abreast

end Stream

/-! ## Trackers abreast -/

/-- Two trackers that know the same position, of streams abreast, from origins abreast. -/
structure Tracker.Abreast (s₀ t₀ : Stream) (a b : Tracker) : Prop where
  position : a.position = b.position
  last : s₀.Abreast t₀ a.last b.last
  origin : s₀.Abreast t₀ a.origin b.origin

namespace Tracker.Abreast

variable {s₀ t₀ s t : Stream} {a b : Tracker}

/-- The answers are the same: both trackers count on, or both count again. -/
theorem locate_eq (h₀ : s₀.Level t₀) (hab : Tracker.Abreast s₀ t₀ a b) (h : s₀.Abreast t₀ s t) :
    a.locate s = b.locate t := by
  have hleft : s.source.ident = a.last.source.ident := by rw [h.left.source, hab.last.left.source]
  have hright :
      t.source.ident = b.last.source.ident := by rw [h.right.source, hab.last.right.source]
  have hahead : a.last.offset ≤ s.offset ↔ b.last.offset ≤ t.offset := by
    have hs := h.offset
    have ha := hab.last.offset
    omega
  rw [locate, locate]
  -- each tracker stays in the source of its own start, so it is the offsets that decide, and these
  -- differ alike
  by_cases hcase : b.last.offset ≤ t.offset
  · rw [if_pos ⟨hleft, hahead.mpr hcase⟩, if_pos ⟨hright, hcase⟩, hab.position,
      hab.last.consumedSince_eq h₀ h]
  · rw [if_neg fun hc => hcase (hahead.mp hc.2), if_neg fun hc => hcase hc.2,
      hab.origin.consumedSince_eq h₀ h]

theorem moveTo (h₀ : s₀.Level t₀) (hab : Tracker.Abreast s₀ t₀ a b) (h : s₀.Abreast t₀ s t) :
    Tracker.Abreast s₀ t₀ (a.moveTo s) (b.moveTo t) :=
  ⟨hab.locate_eq h₀ h, h, hab.origin⟩

theorem start (h : s₀.Abreast t₀ s t) : Tracker.Abreast s₀ t₀ (.start s) (.start t) :=
  ⟨rfl, h, h⟩

end Tracker.Abreast

/-! ## Contexts abreast -/

namespace Table

variable {key : Value}

/-- The later of two values under one key is all that remains. -/
theorem insert_insert (hkey : key.same key = true) (v w : Value) (entries : Entries) :
    insert key v (insert key w entries) = insert key v entries := by
  induction entries with
  | nil => simp [insert, hkey]
  | cons entry entries ih =>
    obtain ⟨k, u⟩ := entry
    by_cases hk : k.same key = true
    · simp [insert, hk]
    · simp [insert, hk, ih]

theorem insert_of_absent {entries : Entries} (habsent : get? key entries = none) (v : Value) :
    insert key v entries = entries ++ [(key, v)] := by
  induction entries with
  | nil => rfl
  | cons entry entries ih =>
    obtain ⟨k, w⟩ := entry
    rw [get?] at habsent
    split at habsent
    · cases habsent
    · next hk => rw [insert, if_neg hk, ih habsent, List.cons_append]

/-- A key is absent if no entry has it. -/
theorem not_same_of_absent {entries : Entries} (habsent : get? key entries = none) :
    ∀ entry ∈ entries, entry.1.same key = false := by
  induction entries with
  | nil => exact fun _ hentry => nomatch hentry
  | cons entry entries ih =>
    obtain ⟨k, w⟩ := entry
    rw [get?] at habsent
    split at habsent
    · cases habsent
    · next hk =>
      intro e he
      rcases List.mem_cons.mp he with rfl | he
      · exact Bool.eq_false_iff.mpr hk
      · exact ih habsent e he

end Table

/-- Two contexts that differ at most in a tracker, which they had not from the start. -/
inductive ContextsAbreast (s₀ t₀ : Stream) : Value → Value → Prop where
  | untracked {c : Value} (h : c.get? .trackerKey = none) : ContextsAbreast s₀ t₀ c c
  | tracked {entries : Table.Entries} {a b : Tracker}
      (habsent : Table.get? .trackerKey entries = none)
      (h : Tracker.Abreast s₀ t₀ a b) :
      ContextsAbreast s₀ t₀ (Rule.withTracker a (.table entries))
        (Rule.withTracker b (.table entries))

/-- The new tracker is in the place of the old one. -/
theorem Rule.withTracker_withTracker (a b : Tracker) (entries : Table.Entries) :
    withTracker a (withTracker b (.table entries)) = withTracker a (.table entries) := by
  rw [withTracker, withTracker, withTracker, Table.insert_insert Value.same_trackerKey]

namespace ContextsAbreast

variable {s₀ t₀ s t : Stream} {c d : Value}

/-- The position is missing in both contexts, or it is the same in both and both trackers move
on. -/
theorem position_cases (h₀ : s₀.Level t₀) (hc : ContextsAbreast s₀ t₀ c d)
    (hs : s₀.Abreast t₀ s t) :
    (Rule.position s c = .ok (.err s (.tag .missingPositionContext) c) ∧
      Rule.position t d = .ok (.err t (.tag .missingPositionContext) d)) ∨
    ∃ x c' d', Rule.position s c = .ok (.ok s (.position x) c') ∧
      Rule.position t d = .ok (.ok t (.position x) d') ∧ ContextsAbreast s₀ t₀ c' d' := by
  cases hc with
  | untracked hnone =>
    have htracker : Rule.trackerOf? c = .ok none := by rw [Rule.trackerOf?, hnone]
    exact .inl ⟨Leaf.position_of_none htracker s, Leaf.position_of_none htracker t⟩
  | @tracked entries a b habsent hab =>
    rw [Leaf.position_of_tracker (Rule.trackerOf?_withTracker a entries),
      Leaf.position_of_tracker (Rule.trackerOf?_withTracker b entries), hab.locate_eq h₀ hs,
      Rule.withTracker_withTracker, Rule.withTracker_withTracker]
    exact .inr ⟨_, _, _, rfl, rfl, .tracked habsent (hab.moveTo h₀ hs)⟩

/-- Both contexts take a new tracker, or both are at fault. -/
theorem trackedContext {σ τ : Type} {K : Coupling σ τ} (hfault : ∀ f, K.stop (.fault f) (.fault f))
    (hc : ContextsAbreast s₀ t₀ c d) (hs : s₀.Abreast t₀ s t) :
    K.Excepts (ContextsAbreast s₀ t₀) (Coupling.trackedContext s c)
      (Coupling.trackedContext t d) := by
  cases hc with
  | untracked hnone =>
    by_cases htable : ∃ entries, c = .table entries
    · obtain ⟨entries, rfl⟩ := htable
      exact .ok (.tracked hnone (.start hs))
    · have hnot (entries : Table.Entries) : c ≠ .table entries := fun h => htable ⟨entries, h⟩
      rw [Coupling.trackedContext_of_not_table hnot, Coupling.trackedContext_of_not_table hnot]
      exact .error (hfault _)
  | @tracked entries a b habsent hab =>
    refine .ok ?_
    rw [Rule.withTracker_withTracker, Rule.withTracker_withTracker]
    exact .tracked habsent (.start hs)

end ContextsAbreast

/-! ## Two runs -/

namespace Coupling

/-- Two runs from `s₀` and from `t₀`. Their logs are not looked at. -/
def abreast (s₀ t₀ : Stream) : Coupling Log Log where
  stream := s₀.Abreast t₀
  context := ContextsAbreast s₀ t₀
  output := Eq
  error := Eq
  state _ _ := True
  halted _ _ := True
  stop := Eq
  halt h := h
  exhausted := rfl
  null := rfl
  tuple := @tuple_eq
  list := @list_eq
  shortfall := @shortfall_eq

variable {s₀ t₀ : Stream}

/-- Positions agree where both contexts have trackers abreast, and are missing from both
otherwise. -/
theorem abreast_position (h₀ : s₀.Twins t₀) : (abreast s₀ t₀).Leaves .position .position := by
  intro s t c d hs hc
  show (abreast s₀ t₀).Excepts _ (Rule.position s c) (Rule.position t d)
  rcases hc.position_cases h₀.level hs with ⟨hleft, hright⟩ | ⟨x, c', d', hleft, hright, hc'⟩
  · rw [hleft, hright]
    exact .ok (.err hs rfl hc)
  · rw [hleft, hright]
    exact .ok (.ok hs rfl hc')

/-- A leaf looks at what is left and advances by as many units on both sides. -/
theorem abreast_leaf (h₀ : s₀.Twins t₀) {l : Leaf} (hcustom : ∀ run, l ≠ .custom run)
    (hposition : l ≠ .position) :
    (abreast s₀ t₀).Leaves l l := by
  intro s t c d hs hc
  refine (Leaf.alike_run hcustom hposition (hs.agrees h₀) c d).excepts (fun _ => rfl) (fun _ => rfl)
    (fun _ => rfl) hs hc fun n x hrun => hs.advance h₀.level ?_
  -- the left run advances over units that are there, and the right one has as many
  exact Leaf.leadsTo_run hcustom (hs.left.inBounds h₀.left) hrun

theorem abreast_trimmed (h₀ : s₀.Twins t₀) {s t : Stream} (hs : s₀.Abreast t₀ s t) :
    (abreast s₀ t₀).Excepts (s₀.Abreast t₀) s.skipBlanks t.skipBlanks := by
  have hbounds := hs.left.inBounds h₀.left
  obtain ⟨n, hn, hleft, hright⟩ :=
    hbounds.skipBlanks_alike (hs.right.inBounds h₀.right) (hs.kind_eq h₀) (hs.rest_eq h₀.level)
  rw [hleft, hright]
  exact .ok (hs.advance h₀.level (hbounds.leadsTo_advance hn))

end Coupling

/-- All library parts but traces. -/
def Palette.untraced : Palette where
  leaf l := ∀ run, l ≠ .custom run
  unary op := (∀ hook, op ≠ .hooked hook) ∧ ∀ label, op ≠ .traced label
  fault _ := True

/-- Tracing is left out, since an event tells the offset, which differs. -/
theorem Coupling.abreast_grants {s₀ t₀ : Stream} (h₀ : s₀.Twins t₀) :
    (Coupling.abreast s₀ t₀).Grants .untraced where
  leaf l hl := by
    by_cases hposition : l = .position
    · subst hposition
      exact abreast_position h₀
    · exact abreast_leaf h₀ hl hposition
  unary op hop := by
    refine allows_of_eq (fun _ _ => .rfl) (fun _ _ => .rfl) (fun _ => rfl) hop.1 ?_ ?_
      fun label h =>
      absurd h (hop.2 label)
    · intro s t hs
      exact abreast_trimmed h₀ hs
    · intro _ s t c d hs hc
      exact hc.trackedContext (fun _ => rfl) hs
  fault _ _ := rfl
  output _ _ h := h

/-! ## Ends abreast -/

/-- Two ends of runs from `s₀` and from `t₀`: the same success or failure, equally far on, or the
same stop. -/
inductive EndsAbreast (s₀ t₀ : Stream) : Except Stop Result → Except Stop Result → Prop where
  | ok {s t : Stream} {x c d : Value} (hs : s₀.Abreast t₀ s t) (hc : ContextsAbreast s₀ t₀ c d) :
      EndsAbreast s₀ t₀ (.ok (.ok s x c)) (.ok (.ok t x d))
  | err {s t : Stream} {e c d : Value} (hs : s₀.Abreast t₀ s t) (hc : ContextsAbreast s₀ t₀ c d) :
      EndsAbreast s₀ t₀ (.ok (.err s e c)) (.ok (.err t e d))
  | stopped {e : Stop} : EndsAbreast s₀ t₀ (.error e) (.error e)

theorem Coupling.abreast_end {s₀ t₀ : Stream} {x y : Except Stop Result × Log}
    (h : (abreast s₀ t₀).Ends (abreast s₀ t₀).Results x y) : EndsAbreast s₀ t₀ x.1 y.1 := by
  cases h with
  | stopped he _ =>
    obtain rfl := he
    exact .stopped
  | returned hr _ =>
    cases hr with
    | ok hs hx hc =>
      obtain rfl := hx
      exact .ok hs hc
    | err hs he hc =>
      obtain rfl := he
      exact .err hs hc

/-! Results are compared by what their streams have left, so results abreast match. A value with a
NaN does not even match itself, which is why matching is stated only where a result matches itself.
-/

/-- The check goes through the entries of the first table and looks for each in the second. -/
theorem Value.entriesWithin_iff (as bs : Table.Entries) :
    Value.entriesWithin as bs = true ↔
      ∀ e ∈ as, ∃ b ∈ bs, e.1.same b.1 = true ∧ e.2.same b.2 = true := by
  induction as with
  | nil => simp [Value.entriesWithin]
  | cons e as ih =>
    obtain ⟨k, v⟩ := e
    rw [Value.entriesWithin, Bool.and_eq_true, ih, List.forall_mem_cons, List.any_eq_true]
    simp only [Bool.and_eq_true, Value.same]

/-- Trackers abreast are the same for a comparison, position by position and stream by stream. -/
theorem Tracker.Abreast.same {s₀ t₀ : Stream} {a b : Tracker} (h₀ : s₀.Twins t₀)
    (h : Tracker.Abreast s₀ t₀ a b) :
    (Value.tracker a).same (.tracker b) = true := by
  rw [Value.same, Value.equal, h.position, h.last.equal h₀, h.origin.equal h₀]
  simp

/-- Contexts abreast are the same wherever the first one is the same as itself, as all are but those
that hold a NaN. -/
theorem ContextsAbreast.same {s₀ t₀ : Stream} {c d : Value} (h₀ : s₀.Twins t₀)
    (h : ContextsAbreast s₀ t₀ c d) (hself : c.same c = true) : c.same d = true := by
  cases h with
  | untracked _ => exact hself
  | @tracked entries a b habsent hab =>
    rw [Rule.withTracker, Rule.withTracker, Table.insert_of_absent habsent,
      Table.insert_of_absent habsent] at *
    rw [Value.same, Value.equal, Bool.or_eq_true, Bool.and_eq_true, Value.entriesWithin_iff] at *
    refine .inr ⟨by simp, fun e he => ?_⟩
    have hself := (hself.resolve_left (by simp [Value.sameNaN])).2 e he
    obtain ⟨f, hf, hkey, hvalue⟩ := hself
    rcases List.mem_append.mp hf with hf | hf
    · exact ⟨f, List.mem_append_left _ hf, hkey, hvalue⟩
    · -- the match is the tracker on the left, so the entry is that tracker itself
      rw [List.mem_singleton.mp hf] at hkey
      rcases List.mem_append.mp he with he | he
      · rw [Table.not_same_of_absent habsent e he] at hkey
        cases hkey
      · rw [List.mem_singleton.mp he] at hkey ⊢
        exact ⟨_, List.mem_append_right _ (List.mem_singleton.mpr rfl), hkey, hab.same h₀⟩

/-- Results that end abreast are equal, if the first one is equal to itself. -/
theorem EndsAbreast.equal {s₀ t₀ : Stream} {r r' : Result} (h₀ : s₀.Twins t₀)
    (h : EndsAbreast s₀ t₀ (.ok r) (.ok r')) (hself : r.equal r = true) : r.equal r' = true := by
  cases h with
  | ok hs hc =>
    rw [Result.equal, Bool.and_eq_true, Bool.and_eq_true] at hself ⊢
    exact ⟨⟨hs.equal h₀, hself.1.2⟩, hc.same h₀ hself.2⟩
  | err hs hc =>
    rw [Result.equal, Bool.and_eq_true, Bool.and_eq_true] at hself ⊢
    exact ⟨⟨hs.equal h₀, hself.1.2⟩, hc.same h₀ hself.2⟩

/-! ## Whole parsers -/

theorem Stream.InBounds.twins_of_equal {s t : Stream} (hs : s.InBounds) (ht : t.InBounds)
    (h : s.equal t = true) :
    s.Twins t := by
  rw [Stream.equal, Bool.and_eq_true, decide_eq_true_iff, decide_eq_true_iff] at h
  exact ⟨hs, ht, h.1, h.2⟩

/-- What is left of a stream, as an input of its own. -/
theorem Stream.InBounds.twins_of_fresh {s t : Stream} (hs : s.InBounds) {ident : Nat}
    (h : (Input.value (.ofUnits s.kind s.rest)).toStream ident = .ok t) : s.Twins t := by
  obtain rfl : t = ⟨⟨ident, s.kind, s.rest.toArray⟩, 0⟩ := by
    cases hkind : s.kind <;> rw [hkind] at h <;> cases h <;> rfl
  have ht : Stream.InBounds ⟨⟨ident, s.kind, s.rest.toArray⟩, 0⟩ :=
    ⟨Int.le_refl 0, Int.natCast_nonneg _⟩
  refine ⟨hs, ht, rfl, ?_⟩
  rw [ht.rest_eq]
  rfl

/-- **Parsing depends on what is left to read.** Let a parser of library parts without traces be run
at a stream inside its source, in a context without a tracker, and again on what is left there as an
input of its own, or on any other stream with the same left to read. Both runs end alike: with the
same output or error, equally far on from their starts, and in contexts that differ by where the
streams of a tracker lie; or both are stopped alike. So the two results match, if they match
themselves. -/
theorem Grammar.Over.depends_on_rest {rules : Rules} (hrules : rules.Over .untraced) {g : Grammar}
    (hg : g.Over .untraced) {p : Parser Factory} (hp : g.check = .ok p) {s t : Stream}
    (hs : s.InBounds)
    (ht : (∃ ident, (Input.value (.ofUnits s.kind s.rest)).toStream ident = .ok t) ∨
      t.InBounds ∧ s.equal t = true)
    {c : Value} (hc : c.get? .trackerKey = none) (budget : Nat) (log log' : Log) :
    let x := (p.direct rules budget s c log).1
    let y := (p.direct rules budget t c log').1
    EndsAbreast s t x y ∧
      ∀ r r', x = .ok r → y = .ok r' → r.equal r = true → r.equal r' = true := by
  intro x y
  -- a fresh source of the rest and an equal stream have the same left, as texts or as bytes
  have htwins : s.Twins t := by
    rcases ht with ⟨ident, hfresh⟩ | ⟨ht, heq⟩
    · exact hs.twins_of_fresh hfresh
    · exact hs.twins_of_equal ht heq
  have hend : EndsAbreast s t x y :=
    Coupling.abreast_end <|
      Coupling.Rules.direct (Coupling.abreast_grants htwins) hrules budget (hg.check hp)
        htwins.abreast (.untracked hc) log log' trivial
  refine ⟨hend, fun r r' hr hr' hself => ?_⟩
  rw [hr, hr'] at hend
  exact hend.equal htwins hself

/-- The second line of a text and that line by itself, read with a tracker that a failed attempt
leaves ahead. -/
theorem depends_on_rest_second_line :
    let attempt : Grammar := .serial [.char 'a', .leaf .position, .char 'x']
    let g : Grammar := .unary .tracked (.serial [.optional attempt, .leaf .position])
    let s : Stream := ⟨⟨0, .text, #[120, 10, 97, 98]⟩, 2⟩
    ∃ p t, g.check = .ok p ∧ (Input.value (.ofUnits s.kind s.rest)).toStream 1 = .ok t ∧
      let x := (p.direct (fun _ => none) 4 s .emptyTable #[]).1
      let y := (p.direct (fun _ => none) 4 t .emptyTable #[]).1
      EndsAbreast s t x y ∧ ∀ r r', x = .ok r → y = .ok r' → r.equal r = true →
        r.equal r' = true := by
  intro attempt g s
  have hchar (c : Char) : (Grammar.char c).Over .untraced := .char fun _ => nofun
  have hposition : (Grammar.leaf .position).Over .untraced := .leaf fun _ => nofun
  have hattempt : attempt.Over .untraced :=
    .serial (List.forall_mem_cons.mpr
      ⟨hchar 'a', List.forall_mem_cons.mpr ⟨hposition, List.forall_mem_singleton.mpr (hchar 'x')⟩⟩)
  have hoptional : (Grammar.optional attempt).Over .untraced :=
    .unary ⟨fun _ => nofun, fun _ => nofun⟩ hattempt
  have hg : g.Over .untraced :=
    .unary ⟨fun _ => nofun, fun _ => nofun⟩
      (.serial (List.forall_mem_cons.mpr ⟨hoptional, List.forall_mem_singleton.mpr hposition⟩))
  have hrules : Rules.Over .untraced fun _ => none :=
    ⟨fun _ _ => nofun, fun _ _ => nofun, fun _ _ => trivial⟩
  have hs : s.InBounds := ⟨by decide, by decide⟩
  exact ⟨_, _, rfl, rfl, hg.depends_on_rest hrules rfl hs (.inl ⟨1, rfl⟩) rfl 4 #[] #[]⟩

end Descent
