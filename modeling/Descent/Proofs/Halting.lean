import Descent.Proofs.Chains
import Descent.Proofs.Faults

/-!
# Descent — loops that end

A loop has no measure of its own and no guard against a success that consumes nothing. What makes it
end comes from its parts: each turn moves the offset on, and there is an end of the source, or each
turn takes one from the maximum. Both are instances of one notion, a bound that falls with each
turn.

* **`Run.Finishes`** — a run whose parts have a budget ends, in one way, when this budget is large
  enough.
* **`Parser.Within` / `Parser.Falls`** — what is asked of the parts of a loop: to end and to stay
  where this is so, and a bound on the turns, which each success brings down.
* **`Parser.finishes_repeatFrom` / `Parser.finishes_untilFrom` / `Parser.finishes_separatedFrom`** —
  a loop with a finite bound takes at most one turn more than this bound, and gathers no more than
  it.
* **`Run.Metered`** — a run and the same run with a meter on some of its parts, which bounds how
  often these are called.
* **`Parser.repetitions_end`** — the statement for all repetitions.
-/

namespace Descent

/-! ## Runs that finish -/

namespace Run

variable {σ α β : Type}

/-- With every budget `n` that is large enough, and in whatever state, the run ends in one and the
same way. It is not exhausted; if it returns, the value has the property `P`, and if it is stopped,
it is by one of `E`. -/
def Finishes (E : Stop → Prop) (P : α → Prop) (x : Nat → Run σ α) : Prop :=
  ∃ r, r ≠ .error .exhausted ∧ (∀ e, r = .error e → E e) ∧ (∀ a, r = .ok a → P a) ∧
    ∀ᶠ n in Filter.atTop, ∀ u, (x n u).1 = r

variable {E : Stop → Prop} {P : α → Prop} {Q : β → Prop} {x : Nat → Run σ α}

/-- What needs no budget finishes with any. -/
theorem Finishes.pure {a : α} (h : P a) : Finishes E P fun _ => (Pure.pure a : Run σ α) := by
  refine ⟨.ok a, nofun, nofun, fun b hb => ?_, .of_forall fun _ _ => rfl⟩
  cases hb
  exact h

/-- A run that finishes does so with every weaker property. -/
theorem Finishes.mono {P' : α → Prop} (h : Finishes E P x) (hmono : ∀ a, P a → P' a) :
    Finishes E P' x := by
  obtain ⟨r, hr, hE, hP, hrun⟩ := h
  exact ⟨r, hr, hE, fun a ha => hmono a (hP a ha), hrun⟩

/-- One run behind the other. A stop of the first one is the end of both. -/
theorem Finishes.bind {f : Nat → α → Run σ β} (hx : Finishes E P x)
    (hf : ∀ a, P a → Finishes E Q fun n => f n a) :
    Finishes E Q fun n => x n >>= f n := by
  obtain ⟨r, hr, hE, hP, hrun⟩ := hx
  cases r with
  | error e =>
    refine ⟨.error e, fun h => hr (congrArg Except.error (Except.error.inj h)),
      fun e' he => ?_, nofun, ?_⟩
    · exact hE e' (congrArg Except.error (Except.error.inj he))
    filter_upwards [hrun] with n hrun u
    rw [fst_bind, hrun]
  | ok a =>
    obtain ⟨r', hr', hE', hQ, hrun'⟩ := hf a (hP a rfl)
    refine ⟨r', hr', hE', hQ, ?_⟩
    filter_upwards [hrun, hrun'] with n hrun hrun' u
    rw [fst_bind, hrun]
    exact hrun' _

end Run

/-! ## Streams further on

The offset of a stream can be any integer, and nothing here asks for more. -/

namespace Stream

variable {s t u : Stream}

/-- The number of units from the offset to the end. -/
def remaining (s : Stream) : Nat :=
  (s.source.size - s.offset).toNat

/-- The second stream is the first one or lies further on in its source. A stream that starts past
the end can only stay there. -/
structure Onward (s t : Stream) : Prop where
  source : t.source = s.source
  start_le : s.offset ≤ t.offset
  le_max : t.offset ≤ max s.offset s.source.size

theorem Onward.refl (s : Stream) : s.Onward s :=
  ⟨rfl, le_rfl, le_max_left _ _⟩

theorem Onward.trans (h : s.Onward t) (h' : t.Onward u) : s.Onward u := by
  obtain ⟨hsource, hstart, hle⟩ := h
  obtain ⟨hsource', hstart', hle'⟩ := h'
  refine ⟨hsource'.trans hsource, hstart.trans hstart', hle'.trans ?_⟩
  rw [hsource]
  exact max_le hle (le_max_right _ _)

theorem LeadsTo.onward (h : s.LeadsTo t) : s.Onward t :=
  ⟨h.source, h.start_le, h.le_size.trans (le_max_right _ _)⟩

/-- From inside the source nothing leads out of it. -/
theorem Onward.inBounds (hs : s.InBounds) (h : s.Onward t) : t.InBounds := by
  obtain ⟨hsource, hstart, hle⟩ := h
  rw [max_eq_right hs.le_size] at hle
  exact ⟨hs.nonneg.trans hstart, hsource ▸ hle⟩

/-- Further on there is no more left to read. -/
theorem Onward.remaining_le (h : s.Onward t) : t.remaining ≤ s.remaining := by
  obtain ⟨hsource, hstart, _⟩ := h
  unfold remaining
  rw [hsource]
  omega

/-- Of two streams further on, the one with the larger offset has less remaining. -/
theorem Onward.remaining_lt (ht : s.Onward t) (hu : s.Onward u) (hlt : t.offset < u.offset) :
    u.remaining + 1 ≤ t.remaining := by
  obtain ⟨hsource, hstart, _⟩ := ht
  obtain ⟨hsource', _, hle⟩ := hu
  unfold remaining
  rw [hsource, hsource']
  omega

end Stream

/-! ## How much is gathered -/

/-- A success of a repetition lists at most `k` outputs. -/
def Result.ListsUpTo (k : ℕ∞) (r : Result) : Prop :=
  ∀ t v d, r = .ok t v d → ∃ xs, v = .list xs ∧ (xs.length : ℕ∞) ≤ k

/-- A failure lists nothing. -/
theorem Result.listsUpTo_err {k : ℕ∞} (t : Stream) (e d : Value) :
    (Result.err t e d).ListsUpTo k := by
  intro t' v d' hr
  cases hr

theorem Result.ListsUpTo.mono {k l : ℕ∞} {r : Result} (h : r.ListsUpTo k) (hkl : k ≤ l) :
    r.ListsUpTo l := by
  intro t v d hr
  obtain ⟨xs, hv, hxs⟩ := h t v d hr
  exact ⟨xs, hv, hxs.trans hkl⟩

/-- A repetition with bounds reports at most `k` outputs, whether they reach the minimum or not. -/
def Result.ReportsUpTo (k : ℕ∞) (least : Count) (tag : Tag) (r : Result) : Prop :=
  ∃ xs t d, (xs.length : ℕ∞) ≤ k ∧ r = Rule.reported least tag xs t d

namespace Rule.Sweep

variable {k : ℕ∞} (w : Sweep)

/-- A loop lists no more than it has gathered. -/
theorem succeed_listsUpTo (h : (w.gathered.length : ℕ∞) ≤ k) : w.succeed.ListsUpTo k := by
  intro t v d hr
  cases hr
  exact ⟨w.outputs, rfl, by simpa [outputs] using h⟩

/-- Below the minimum the gathered outputs are reported as the shortfall. -/
theorem atLeast_reportsUpTo (h : (w.gathered.length : ℕ∞) ≤ k) (least : Count) (tag : Tag) :
    (w.atLeast least tag).ReportsUpTo k least tag :=
  ⟨w.outputs, w.stream, w.context, by simpa [outputs] using h, w.atLeast_eq least tag⟩

end Rule.Sweep

/-! ## What the parts of a loop are asked for -/

namespace Parser

variable {rules : Rules} {p q separator stop : Parser Factory} {D : Stream → Prop} {E : Stop → Prop}
  {μ : Count → Stream → ℕ∞} {s t : Stream} {c : Value}

/-- The parser, run there, ends: it returns a result that has the property `P`, or it is stopped by
one of `E`. -/
def EndsIn (rules : Rules) (p : Parser Factory) (s : Stream) (c : Value) (E : Stop → Prop)
    (P : Result → Prop) : Prop :=
  ∃ x, p.Ends rules s c x ∧ (∀ e, x = .error e → E e) ∧ ∀ r, x = .ok r → P r

theorem EndsIn.mono {P P' : Result → Prop} (h : p.EndsIn rules s c E P) (hmono : ∀ r, P r → P' r) :
    p.EndsIn rules s c E P' := by
  obtain ⟨x, hx, hE, hP⟩ := h
  exact ⟨x, hx, hE, fun r hr => hmono r (hP r hr)⟩

/-- Wherever `D` holds, the parser ends, in whatever context. -/
def EndsOn (rules : Rules) (p : Parser Factory) (D : Stream → Prop) (E : Stop → Prop) : Prop :=
  ∀ s c, D s → p.EndsIn rules s c E fun _ => True

/-- Wherever `D` holds, the parser ends, and a success of it is again where `D` holds. -/
structure Within (rules : Rules) (p : Parser Factory) (D : Stream → Prop) (E : Stop → Prop) :
    Prop where
  ends : p.EndsOn rules D E
  stays : ∀ ⦃s c t y d⦄, D s → p.Ends rules s c (.ok (.ok t y d)) → D t

/-- A success of the parser, where `D` holds, has a larger offset than its start. -/
def Grows (rules : Rules) (p : Parser Factory) (D : Stream → Prop) : Prop :=
  ∀ ⦃s c t y d⦄, D s → p.Ends rules s c (.ok (.ok t y d)) → s.offset < t.offset

/-- The bound `μ`, which may depend on how many items are still admitted, falls with each success of
the parser for which there is room. -/
def Falls (rules : Rules) (p : Parser Factory) (D : Stream → Prop) (μ : Count → Stream → ℕ∞) :
    Prop :=
  ∀ (most : Count) ⦃s c t y d⦄, most.isPositive = true → D s → p.Ends rules s c (.ok (.ok t y d)) →
    μ most.pred t + 1 ≤ μ most s

/-- A parser that ends everywhere stays everywhere. -/
theorem EndsOn.within (h : p.EndsOn rules (fun _ => True) E) : p.Within rules (fun _ => True) E :=
  ⟨h, fun _ _ _ _ _ _ _ => trivial⟩

/-- With an end of the source ahead, larger offsets are a bound that falls. -/
theorem Grows.falls (h : p.Grows rules s.Onward)
    (hstays : ∀ ⦃t c u y d⦄, s.Onward t → p.Ends rules t c (.ok (.ok u y d)) → s.Onward u) :
    p.Falls rules s.Onward fun _ t => t.remaining := by
  intro most t c u y d _ ht hends
  have hlt := ht.remaining_lt (hstays ht hends) (h ht hends)
  show (u.remaining : ℕ∞) + 1 ≤ t.remaining
  exact_mod_cast hlt

/-- The room that is left falls with each success, whatever the parser does. -/
theorem falls_room : p.Falls rules D fun most _ => most.room := by
  intro most s c t y d hmost _ _
  exact (Count.room_of_isPositive hmost).ge

/-- A success of one parser behind another is a success of both, one from where the other ends. -/
theorem ends_keepRight_ok {u : Stream} {e z : Value} :
    (Parser.binary .keepRight p q).Ends rules s c (.ok (.ok u z e)) ↔
    ∃ t y d, p.Ends rules s c (.ok (.ok t y d)) ∧ q.Ends rules t d (.ok (.ok u z e)) := by
  rw [ends_binary]
  constructor
  · rintro ⟨_, n, b, log, hrun⟩
    simp only [Binary.toRule, Rule.keepRight, Run.fst_bind] at hrun
    cases hfirst : (p.direct rules n s c log).1 with
    | error e => simp [hfirst] at hrun
    | ok attempt =>
      have hends := ends_of_direct hfirst nofun
      cases attempt with
      | err t e d =>
        simp only [hfirst] at hrun
        cases hrun
      | ok t y d =>
        simp only [hfirst] at hrun
        exact ⟨t, y, d, hends, ends_of_direct hrun nofun⟩
  · rintro ⟨t, y, d, hp, hq⟩
    -- one budget that is large enough for both parts
    obtain ⟨n, hrun, hrun'⟩ := (hp.eventually.and hq.eventually).exists
    refine ⟨nofun, n, 0, #[], ?_⟩
    simp only [Binary.toRule, Rule.keepRight, Run.fst_bind, hrun]
    exact hrun' _

/-- A parser that stays and another one behind it. -/
theorem Within.keepRight_stays (hp : p.Within rules D E) (hq : q.Within rules D E) {u : Stream}
    {e z : Value} (hs : D s) (h : (Parser.binary .keepRight p q).Ends rules s c (.ok (.ok u z e))) :
    D u := by
  obtain ⟨t, y, d, hleft, hright⟩ := ends_keepRight_ok.mp h
  exact hq.stays (hp.stays hs hleft) hright

/-- What a parser does that ends. -/
theorem EndsOn.finishes (h : p.EndsOn rules D E) (hs : D s) (c : Value) :
    Run.Finishes E (fun r => p.Ends rules s c (.ok r)) fun n => p.direct rules n s c := by
  obtain ⟨x, hx, hE, _⟩ := h s c hs
  refine ⟨x, hx.1, hE, fun r hr => ?_, hx.eventually⟩
  subst hr
  exact hx

/-! ### Leaves -/

/-- A leaf needs no budget. -/
theorem direct_leaf (rules : Rules) (l : Leaf) (n : Nat) (s : Stream) (c : Value) (log : Log) :
    ((Parser.leaf l).direct rules (n + 1) s c log).1 = (l.run s c).mapError .fault := by
  show (Run.lift (l.run s c) log).1 = _
  cases l.run s c with
  | error f => rfl
  | ok r => rfl

/-- A leaf needs no budget, so it ends if it does not raise. -/
theorem endsOn_leaf {l : Leaf} (h : ∀ s c, D s → Returns (l.run s c)) :
    (Parser.leaf l).EndsOn rules D E := by
  intro s c hs
  obtain ⟨r, hr⟩ := h s c hs
  have hrun := direct_leaf rules l 0 s c #[]
  rw [hr] at hrun
  exact ⟨.ok r, ends_of_direct hrun nofun, nofun, fun _ _ => trivial⟩

/-- What a leaf ends with is what its function gives. -/
theorem run_of_ends_leaf {l : Leaf} {r : Result} (h : (Parser.leaf l).Ends rules s c (.ok r)) :
    l.run s c = .ok r := by
  obtain ⟨n, hrun⟩ := (Filter.eventually_atTop.mp h.eventually)
  have hleaf := direct_leaf rules l n s c #[]
  rw [hrun (n + 1) n.le_succ] at hleaf
  cases hl : l.run s c with
  | error f => simp [hl, Except.mapError] at hleaf
  | ok r' =>
    rw [hl] at hleaf
    cases hleaf
    rfl

/-- A leaf that returns keeps ahead of a stream that is in its source. -/
theorem within_leaf {l : Leaf} (hl : (Palette.faultless True).leaf l) (hposition : l ≠ .position)
    (hs : s.InBounds) (hsize : s.source.size ≤ maxWord) :
    (Parser.leaf l).Within rules s.Onward E where
  ends := endsOn_leaf fun t c ht =>
    Leaf.returns_run hl hposition (ht.inBounds hs) (ht.source ▸ hsize) c
  stays t c u y d ht h := by
    have hcustom (run : Stream → Value → Except Fault Result) : l ≠ .custom run := by
      rintro rfl
      exact hl
    exact ht.trans (Leaf.leadsTo_run hcustom (ht.inBounds hs) (run_of_ends_leaf h)).onward

/-- A character is consumed. -/
theorem grows_char (cls : CharClass) : (Parser.leaf (.char cls)).Grows rules D := by
  intro s c t y d _ h
  have hrun : Leaf.matchUnit .text cls.mem cls.tag s c = .ok (.ok t y d) := run_of_ends_leaf h
  unfold Leaf.matchUnit at hrun
  obtain ⟨next, _, hrun⟩ := ok_of_bind hrun
  cases next with
  | none => cases hrun
  | some u =>
    simp only at hrun
    split at hrun
    · cases hrun
      exact Int.lt_succ s.offset
    · cases hrun

/-! ## Loops with a bound

The induction is on the budget of the loop, which stays above the bound as long as both fall by one.
-/

/-- A bound that has fallen is within one turn less. -/
theorem lt_of_fallen {m m' : ℕ∞} {b : Nat} (hfall : m' + 1 ≤ m) (hb : m < (b + 1 : Nat)) :
    m' < b := by
  have hlt : m' + 1 < b + 1 := hfall.trans_lt (by exact_mod_cast hb)
  exact (ENat.add_lt_add_iff_right ENat.one_ne_top).mp hlt

/-- An item gathered makes up for a bound that has fallen. -/
theorem push_add_le {m m' : ℕ∞} (hfall : m' + 1 ≤ m) (w : Rule.Sweep) (t : Stream) (y d : Value) :
    ((w.push t y d).gathered.length : ℕ∞) + m' ≤ w.gathered.length + m := by
  show ((w.gathered.length + 1 : Nat) : ℕ∞) + m' ≤ _
  rw [Nat.cast_add_one, add_assoc, add_comm 1]
  gcongr

/-- For an operation it is enough that its rule finishes, with some budget for its own loop. -/
theorem EndsIn.of_unary {op : Unary} {P : Result → Prop} (b : Nat)
    (h : Run.Finishes E P fun n =>
      op.toRule (fun event log => log.push event) b (p.direct rules n) s c) :
    (Parser.unary op p).EndsIn rules s c E P := by
  obtain ⟨x, hx, hE, hP, hrun⟩ := h
  obtain ⟨n, hrun⟩ := hrun.exists
  exact ⟨x, (ends_unary op 0).mpr ⟨hx, n, b, #[], hrun #[]⟩, hE, hP⟩

/-- The same for an operation on two rules. -/
theorem EndsIn.of_binary {op : Binary} {P : Result → Prop} (b : Nat)
    (h : Run.Finishes E P fun n => op.toRule b (p.direct rules n) (q.direct rules n) s c) :
    (Parser.binary op p q).EndsIn rules s c E P := by
  obtain ⟨x, hx, hE, hP, hrun⟩ := h
  obtain ⟨n, hrun⟩ := hrun.exists
  exact ⟨x, (ends_binary op).mpr ⟨hx, n, b, #[], hrun #[]⟩, hE, hP⟩

variable {k : Nat}

theorem lt_succ_of_le {m : ℕ∞} (h : m ≤ k) : m < (k + 1 : Nat) :=
  h.trans_lt (by exact_mod_cast k.lt_succ_self)

section Plain

variable (hp : p.Within rules D E) (hfalls : p.Falls rules D μ)

include hp hfalls

/-- **A plain loop takes at most one turn more than its bound**, and gathers no more than the
bound. -/
theorem finishes_repeatFrom {b : Nat} (most : Count) {w : Rule.Sweep} (hw : D w.stream)
    (hb : μ most w.stream < b) :
    Run.Finishes E (fun w' => (w'.gathered.length : ℕ∞) ≤ w.gathered.length + μ most w.stream)
      fun n => Rule.repeatFrom (p.direct rules n) b most w := by
  induction b generalizing most w with
  | zero => simp at hb
  | succ b ih =>
    unfold Rule.repeatFrom
    split
    next hmost =>
      refine (hp.ends.finishes hw w.context).bind fun r hr => ?_
      cases r with
      | err t e d => exact .pure le_self_add
      | ok t y d =>
        have hfall := hfalls most hmost hw hr
        have hloop := ih most.pred (w := w.push t y d) (hp.stays hw hr) (lt_of_fallen hfall hb)
        exact hloop.mono fun w' hw' => hw'.trans (push_add_le hfall w t y d)
    next => exact .pure le_self_add

/-- **The loop up to another parser does so as well.** The other one is tried in each turn, and only
has to end. -/
theorem finishes_untilFrom (hstop : stop.EndsOn rules D E) {b : Nat} {w : Rule.Sweep}
    (hw : D w.stream) (hb : μ .infinite w.stream < b) :
    Run.Finishes E (Result.ListsUpTo (w.gathered.length + μ .infinite w.stream))
      fun n => Rule.untilFrom (p.direct rules n) (stop.direct rules n) b w := by
  induction b generalizing w with
  | zero => simp at hb
  | succ b ih =>
    unfold Rule.untilFrom
    refine (hstop.finishes hw w.context).bind fun tried _ => ?_
    cases tried with
    | ok t y d => exact .pure (w.succeed_listsUpTo le_self_add)
    | err t e d =>
      refine (hp.ends.finishes hw w.context).bind fun r hr => ?_
      cases r with
      | err t e d => exact .pure (Result.listsUpTo_err t e d)
      | ok t y d =>
        have hfall := hfalls .infinite rfl hw hr
        have hloop := ih (w := w.push t y d) (hp.stays hw hr) (lt_of_fallen hfall hb)
        exact hloop.mono fun r hr => hr.mono (push_add_le hfall w t y d)

/-- A loop with a bound on its turns reports no more outputs than this. -/
theorem endsIn_many (least most : Count) (hs : D s) (hk : μ most s ≤ k) (c : Value) :
    (Parser.unary (.many least most) p).EndsIn rules s c E (Result.ReportsUpTo k least .many) := by
  have hloop := finishes_repeatFrom hp hfalls most (w := .start s c) hs (lt_succ_of_le hk)
  refine .of_unary (k + 1) (hloop.bind fun w hw => .pure (w.atLeast_reportsUpTo ?_ least .many))
  simpa [Rule.Sweep.start] using hw.trans (add_le_add_right hk _)

/-- A first turn that has to succeed counts as one of the turns. -/
theorem endsIn_many1 (hs : D s) (hk : μ .infinite s ≤ k) (c : Value) :
    (Parser.unary .many1 p).EndsIn rules s c E (Result.ListsUpTo k) := by
  refine .of_unary (k + 1) ((hp.ends.finishes hs c).bind fun r hr => ?_)
  cases r with
  | err t e d => exact .pure (Result.listsUpTo_err t e d)
  | ok t y d =>
    have hfall := (hfalls .infinite rfl hs hr).trans hk
    have hloop := finishes_repeatFrom hp hfalls .infinite (w := (Rule.Sweep.start s c).push t y d)
      (hp.stays hs hr) (lt_succ_of_le (le_self_add.trans hfall))
    refine hloop.bind fun w hw => .pure (w.succeed_listsUpTo (hw.trans ?_))
    refine (push_add_le hfall (.start s c) t y d).trans ?_
    simp [Rule.Sweep.start]

/-- An end that is tried before each turn takes no turn itself. -/
theorem endsIn_manyUntil (hstop : stop.EndsOn rules D E) (hs : D s) (hk : μ .infinite s ≤ k)
    (c : Value) :
    (Parser.binary .manyUntil p stop).EndsIn rules s c E (Result.ListsUpTo k) := by
  have hloop := finishes_untilFrom hp hfalls hstop (w := .start s c) hs (lt_succ_of_le hk)
  refine .of_binary (k + 1) (hloop.mono fun r hr => hr.mono ?_)
  simpa [Rule.Sweep.start] using hk

end Plain

section Separated

variable (hseparator : separator.Within rules D E) (hp : p.Within rules D E)
  (hfalls : (Parser.binary .keepRight separator p).Falls rules D μ) (trailing : Rule.Trailing)

include hseparator hp hfalls

/-- **The loop with separators has one item more than turns behind it.** The bound falls with a
separator and an item together; either of them alone may consume nothing. -/
theorem finishes_separatedFrom {b : Nat} (most : Count) (w : Rule.Sweep) {x : Value} (hs : D s)
    (hb : μ most.pred s < b) :
    Run.Finishes E (fun w' => (w'.gathered.length : ℕ∞) ≤ w.gathered.length + 1 + μ most.pred s)
      fun n => Rule.separatedFrom (separator.direct rules n) (p.direct rules n) trailing b most w
        (.ok s x c) := by
  induction b generalizing most w s x c with
  | zero => simp at hb
  | succ b ih =>
    unfold Rule.separatedFrom
    split
    next hmost =>
      refine (hseparator.ends.finishes hs c).bind fun tried htried => ?_
      cases tried with
      | err t e d => exact .pure (by simp [Rule.Sweep.push])
      | ok t y d =>
        have ht := hseparator.stays hs htried
        -- the sweep stands before the separator or behind it, and either way the item is in it
        suffices hbehind : ∀ w₁ : Rule.Sweep, w₁.gathered = x :: w.gathered → Run.Finishes E
            (fun w' => (w'.gathered.length : ℕ∞) ≤ w.gathered.length + 1 + μ most.pred s)
            fun n => if most.pred.isPositive then
                p.direct rules n t d >>= fun attempt =>
                  Rule.separatedFrom (separator.direct rules n) (p.direct rules n)
                  trailing b most.pred w₁ attempt
              else pure w₁ from
          hbehind _ (by cases trailing <;> rfl)
        intro w₁ hw₁
        have hlength : (w₁.gathered.length : ℕ∞) = w.gathered.length + 1 := by simp [hw₁]
        split
        next hmore =>
          refine (hp.ends.finishes ht d).bind fun attempt hattempt => ?_
          cases attempt with
          | err t' e d' =>
            unfold Rule.separatedFrom
            exact .pure (hlength ▸ le_self_add)
          | ok t' z d' =>
            have hfall :=
              hfalls most.pred hmore hs (ends_keepRight_ok.mpr ⟨t, y, d, htried, hattempt⟩)
            have hloop :=
              ih (x := z) (c := d') most.pred w₁ (hp.stays ht hattempt) (lt_of_fallen hfall hb)
            refine hloop.mono fun w' hw' => hw'.trans ?_
            rw [hlength, add_assoc, add_comm 1]
            gcongr
        next => exact .pure (hlength ▸ le_self_add)
    next => exact .pure (by rw [add_assoc]; exact le_self_add)

/-- From the first item on, whether there is one or not. -/
theorem finishes_separatedFrom_attempt (most : Count) (hk : ∀ t, D t → μ most.pred t ≤ k) (hs : D s)
    {attempt : Result} (hattempt : p.Ends rules s c (.ok attempt)) :
    Run.Finishes E (fun w => (w.gathered.length : ℕ∞) ≤ k + 1) fun n =>
      Rule.separatedFrom (separator.direct rules n) (p.direct rules n) trailing (k + 1) most
        (.start s c) attempt := by
  cases attempt with
  | err t e d =>
    unfold Rule.separatedFrom
    exact .pure (by simp [Rule.Sweep.start])
  | ok t y d =>
    have ht := hp.stays hs hattempt
    have hloop := finishes_separatedFrom hseparator hp hfalls trailing (x := y) (c := d) most
      (.start s c) ht (lt_succ_of_le (hk t ht))
    refine hloop.mono fun w hw => hw.trans ?_
    rw [add_comm (k : ℕ∞)]
    simpa [Rule.Sweep.start] using hk t ht

/-- Behind the first item each turn adds one, so there is one output more than turns. -/
theorem endsIn_separated (least most : Count) (hk : ∀ t, D t → μ most.pred t ≤ k) (hs : D s)
    (c : Value) :
    (Parser.binary (.separated trailing least most) separator p).EndsIn rules s c E
      (Result.ReportsUpTo (k + 1) least trailing.tag) := by
  refine .of_binary (k + 1) ((hp.ends.finishes hs c).bind fun attempt hattempt => ?_)
  refine (finishes_separatedFrom_attempt hseparator hp hfalls trailing most hk hs hattempt).bind
    fun w hw => ?_
  exact .pure (w.atLeast_reportsUpTo hw least trailing.tag)

/-- A first item that has to be there changes nothing about this. -/
theorem endsIn_separated1 (hk : ∀ t, D t → μ .infinite t ≤ k) (hs : D s) (c : Value) :
    (Parser.binary (.separated1 trailing) separator p).EndsIn rules s c E
      (Result.ListsUpTo (k + 1)) := by
  refine .of_binary (k + 1) ((hp.ends.finishes hs c).bind fun attempt hattempt => ?_)
  cases attempt with
  | err t e d => exact .pure (Result.listsUpTo_err t e d)
  | ok t y d =>
    refine (finishes_separatedFrom_attempt hseparator hp hfalls trailing .infinite hk hs
      hattempt).bind ?_
    exact fun w hw => .pure (w.succeed_listsUpTo hw)

end Separated

end Parser

/-! ## Calls -/

/-- A rule with a meter, which adds its cost at every call. -/
def Rule.metered {σ : Type} (cost : Nat) (p : Rule σ) : Rule (σ × Nat) :=
  fun s c u => ((p s c u.1).1, (p s c u.1).2, u.2 + cost)

/-- The second run is the first one with a meter: it ends in the same way and the same state, and
has at most `spent` more on the meter. -/
def Run.Metered {σ α : Type} (spent : ℕ∞) (x : Run σ α) (y : Run (σ × Nat) α) : Prop :=
  ∀ u k, ∃ j : Nat, y (u, k) = ((x u).1, (x u).2, k + j) ∧ (j : ℕ∞) ≤ spent

namespace Run

variable {σ α β : Type} {spent spent' : ℕ∞}

theorem Metered.pure (a : α) : Metered spent (Pure.pure a : Run σ α) (Pure.pure a) :=
  fun _ _ => ⟨0, rfl, zero_le⟩

theorem Metered.stop (e : Stop) : Metered spent (Run.stop e : Run σ α) (Run.stop e) :=
  fun _ _ => ⟨0, rfl, zero_le⟩

/-- A meter that is allowed more. -/
theorem Metered.mono {x : Run σ α} {y : Run (σ × Nat) α} (h : Metered spent x y)
    (hle : spent ≤ spent') :
    Metered spent' x y := by
  intro u k
  obtain ⟨j, hrun, hj⟩ := h u k
  exact ⟨j, hrun, hj.trans hle⟩

/-- One run behind the other spends what both spend. -/
theorem Metered.bind {x : Run σ α} {y : Run (σ × Nat) α} {f : α → Run σ β} {g : α → Run (σ × Nat) β}
    (hx : Metered spent x y) (hf : ∀ a, Metered spent' (f a) (g a)) :
    Metered (spent + spent') (x >>= f) (y >>= g) := by
  intro u k
  obtain ⟨j, hrun, hj⟩ := hx u k
  rw [bind_apply, bind_apply, hrun]
  rcases x u with ⟨e | a, v⟩
  · exact ⟨j, rfl, hj.trans le_self_add⟩
  · obtain ⟨j', hrun', hj'⟩ := hf a v (k + j)
    refine ⟨j + j', ?_, ?_⟩
    · rw [← Nat.add_assoc]
      exact hrun'
    · rw [Nat.cast_add]
      exact add_le_add hj hj'

end Run

namespace Rule

variable {σ : Type}

/-- A metered rule is the rule, and one call of it costs what was said. -/
theorem metered_apply (cost : Nat) (p : Rule σ) (s : Stream) (c : Value) :
    Run.Metered cost (p s c) (p.metered cost s c) :=
  fun _ _ => ⟨cost, rfl, le_rfl⟩

/-- A plain loop calls its part at most as often as there is room for items. -/
theorem metered_repeatFrom (p : Rule σ) (b : Nat) (most : Count) (w : Sweep) :
    Run.Metered most.room (repeatFrom p b most w) (repeatFrom (p.metered 1) b most w) := by
  induction b generalizing most w with
  | zero => exact .stop _
  | succ b ih =>
    unfold repeatFrom
    split
    next hmost =>
      rw [Count.room_of_isPositive hmost, add_comm]
      refine (metered_apply 1 p w.stream w.context).bind fun attempt => ?_
      cases attempt with
      | ok t y d => exact ih most.pred (w.push t y d)
      | err t e d => exact .pure w
    next => exact .pure w

/-- Behind an attempt at an item, a loop with separators calls its part only for the items behind
it. -/
theorem metered_separatedFrom (separator p : Rule σ) (trailing : Trailing) (b : Nat) (most : Count)
    (w : Sweep) (attempt : Result) :
    Run.Metered most.pred.room (separatedFrom separator p trailing b most w attempt)
      (separatedFrom (separator.metered 0) (p.metered 1) trailing b most w attempt) := by
  induction b generalizing most w attempt with
  | zero =>
    cases attempt with
    | err t e d => exact .pure w
    | ok t y d => exact .stop _
  | succ b ih =>
    cases attempt with
    | err t e d => exact .pure w
    | ok s x c =>
      unfold separatedFrom
      split
      next =>
        -- the separator costs nothing, and the item is one of those that there is room for
        rw [← zero_add most.pred.room]
        refine (metered_apply 0 separator s c).bind fun tried => ?_
        cases tried with
        | err t e d => exact .pure _
        | ok t y d =>
          simp only
          split
          next hmore =>
            rw [Count.room_of_isPositive hmore, add_comm]
            exact (metered_apply 1 p t d).bind fun attempt => ih most.pred _ attempt
          next => exact .pure _
      next => exact .pure w

/-- A loop calls its part no more often than there is room for outputs. -/
theorem metered_many (p : Rule σ) (b : Nat) (least most : Count) (s : Stream) (c : Value) :
    Run.Metered most.room (many b least most p s c) (many b least most (p.metered 1) s c) := by
  rw [← add_zero most.room]
  exact (metered_repeatFrom p b most (.start s c)).bind fun w => .pure _

/-- The first attempt at an item is made in any case. -/
theorem metered_separated (separator p : Rule σ) (trailing : Trailing) (b : Nat)
    (least most : Count) (s : Stream) (c : Value) :
    Run.Metered (1 + most.pred.room) (separated trailing b least most separator p s c)
      (separated trailing b least most (separator.metered 0) (p.metered 1) s c) := by
  refine (metered_apply 1 p s c).bind fun attempt => ?_
  rw [← add_zero most.pred.room]
  exact (metered_separatedFrom separator p trailing b most (.start s c) attempt).bind
    fun w => .pure _

end Rule

/-- The room of a finite maximum, where a negative one is none. -/
theorem Count.room_finite_le (n : Int) : (Count.finite n).room ≤ (max n 1).toNat := by
  have hle : n.toNat ≤ (max n 1).toNat := by omega
  show (n.toNat : ℕ∞) ≤ _
  exact_mod_cast hle

/-- One item, and the room behind it. -/
theorem Count.room_pred_le (n : Int) : 1 + (Count.finite n).pred.room ≤ (max n 1).toNat := by
  have hle : 1 + (n - 1).toNat ≤ (max n 1).toNat := by omega
  show 1 + ((n - 1).toNat : ℕ∞) ≤ _
  exact_mod_cast hle

namespace Parser

/-- **Repetitions end.** Let a stream be given, and let parsers end wherever they are run at it or
ahead of it, their successes staying ahead of it and inside of its source. If each success of an
item has a larger offset than its start, every repetition of the item ends, whatever its minimum and
maximum, and so do one or more of it and those up to another parser, whatever that one is; with at
most as many outputs as there are units remaining. If each separator with an item behind it has a
larger offset, where either of them alone may consume nothing, repetitions with separators end as
well, with at most one output more. If the maximum is finite, parsers only have to end: so does then
the repetition, with or without separators, after at most as many calls of the item as the maximum
says, or one call.

A repetition is stopped only as its parts may be (`E`), so it returns if they do. -/
theorem repetitions_end (rules : Rules) (separator p stop : Parser Factory) (E : Stop → Prop) :
    (∀ s, p.Within rules s.Onward E → p.Grows rules s.Onward → ∀ c,
      (∀ least most, (Parser.unary (.many least most) p).EndsIn rules s c E
        (Result.ReportsUpTo s.remaining least .many)) ∧
      (Parser.unary .many1 p).EndsIn rules s c E (Result.ListsUpTo s.remaining) ∧
      (stop.EndsOn rules s.Onward E →
        (Parser.binary .manyUntil p stop).EndsIn rules s c E (Result.ListsUpTo s.remaining))) ∧
    (∀ s, separator.Within rules s.Onward E → p.Within rules s.Onward E →
      (Parser.binary .keepRight separator p).Grows rules s.Onward → ∀ c trailing,
      (∀ least most, (Parser.binary (.separated trailing least most) separator p).EndsIn rules s c E
        (Result.ReportsUpTo (s.remaining + 1) least trailing.tag)) ∧
      (Parser.binary (.separated1 trailing) separator p).EndsIn rules s c E
        (Result.ListsUpTo (s.remaining + 1))) ∧
    (p.EndsOn rules (fun _ => True) E → ∀ (n : Int) (least : Count),
      (Parser.unary (.many least (.finite n)) p).EndsOn rules (fun _ => True) E ∧
      (∀ s c budget, Run.Metered (max n 1).toNat
        ((Parser.unary (.many least (.finite n)) p).direct rules (budget + 1) s c)
        (Rule.many budget least (.finite n) ((p.direct rules (budget + 1)).metered 1) s c)) ∧
      (separator.EndsOn rules (fun _ => True) E → ∀ trailing,
        (Parser.binary (.separated trailing least (.finite n)) separator p).EndsOn rules
          (fun _ => True) E ∧
        ∀ s c budget, Run.Metered (max n 1).toNat
          ((Parser.binary (.separated trailing least (.finite n)) separator p).direct rules
            (budget + 1) s c)
          (Rule.separated trailing budget least (.finite n)
            ((separator.direct rules (budget + 1)).metered 0)
            ((p.direct rules (budget + 1)).metered 1) s c))) := by
  refine ⟨fun s hp hgrows c => ?_, fun s hseparator hp hgrows c trailing => ?_,
    fun hp n least => ?_⟩
  · -- the bound is what remains of the source
    have hfalls := hgrows.falls hp.stays
    have hs := Stream.Onward.refl s
    refine ⟨fun least most => ?_, ?_, fun hstop => ?_⟩
    · exact endsIn_many hp hfalls least most hs le_rfl c
    · exact endsIn_many1 hp hfalls hs le_rfl c
    · exact endsIn_manyUntil hp hfalls hstop hs le_rfl c
  · -- the bound is the same, but it is separator and item together that bring it down
    have hfalls := hgrows.falls fun _ _ _ _ _ => hseparator.keepRight_stays hp
    have hs := Stream.Onward.refl s
    have hk (t : Stream) (ht : s.Onward t) : (t.remaining : ℕ∞) ≤ s.remaining := by
      exact_mod_cast ht.remaining_le
    refine ⟨fun least most => ?_, ?_⟩
    · exact endsIn_separated hseparator hp hfalls trailing least most hk hs c
    · exact endsIn_separated1 hseparator hp hfalls trailing hk hs c
  · -- the bound is the maximum, and the streams do not matter
    have hwithin := hp.within
    refine ⟨fun s c _ => ?_, fun s c budget => ?_,
      fun hseparator trailing => ⟨fun s c _ => ?_, fun s c budget => ?_⟩⟩
    · have hends := endsIn_many hwithin falls_room least (.finite n) (s := s) trivial le_rfl c
      exact hends.mono fun _ _ => trivial
    · exact (Rule.metered_many _ budget least (.finite n) s c).mono (Count.room_finite_le n)
    · have hends := endsIn_separated hseparator.within hwithin falls_room trailing least
        (.finite n) (s := s) (fun _ _ => le_rfl) trivial c
      exact hends.mono fun _ _ => trivial
    · exact (Rule.metered_separated _ _ trailing budget least (.finite n) s c).mono
        (Count.room_pred_le n)

/-- Two characters, with nothing between them, up to the end; and nothing at all, three times. All
of this returns. -/
theorem repetitions_end_two :
    let s : Stream := ⟨⟨0, .text, #[97, 98]⟩, 0⟩
    let rules : Rules := fun _ => none
    let never : Stop → Prop := fun _ => False
    let any : Parser Factory := .leaf (.char .any)
    let nothing : Parser Factory := .leaf (.succeed .null)
    let ending : Parser Factory := .leaf .endOfInput
    (Parser.unary (.many (.finite 3) .infinite) any).EndsIn rules s .null never
        (Result.ReportsUpTo 2 (.finite 3) .many) ∧
      (Parser.unary .many1 any).EndsIn rules s .null never (Result.ListsUpTo 2) ∧
      (Parser.binary .manyUntil any ending).EndsIn rules s .null never (Result.ListsUpTo 2) ∧
      (Parser.binary (.separated .take (.finite 0) .infinite) nothing any).EndsIn
        rules s .null never (Result.ReportsUpTo 3 (.finite 0) .sepEndBy) ∧
      (Parser.binary (.separated1 .leave) nothing any).EndsIn rules s .null never
        (Result.ListsUpTo 3) ∧
      (Parser.unary (.many (.finite 0) (.finite 3)) nothing).EndsOn rules (fun _ => True) never ∧
      (Parser.binary (.separated .leave (.finite 0) (.finite 3)) nothing nothing).EndsOn rules
        (fun _ => True) never ∧
      ∀ budget, Run.Metered 3
        ((Parser.unary (.many (.finite 0) (.finite 3)) nothing).direct rules (budget + 1) s .null)
        (Rule.many budget (.finite 0) (.finite 3) ((nothing.direct rules (budget + 1)).metered 1)
          s .null) := by
  intro s rules never any nothing ending
  have hs : s.InBounds := ⟨by decide, by decide⟩
  have hsize : s.source.size ≤ maxWord := by decide
  have hany : any.Within rules s.Onward never := within_leaf trivial nofun hs hsize
  have hnothing : nothing.Within rules s.Onward never := within_leaf trivial nofun hs hsize
  have hending : ending.Within rules s.Onward never := within_leaf trivial nofun hs hsize
  have htotal : nothing.EndsOn rules (fun _ => True) never := endsOn_leaf fun _ _ _ => ⟨_, rfl⟩
  have hboth : (Parser.binary .keepRight nothing any).Grows rules s.Onward := by
    intro t c u y d ht h
    obtain ⟨t', y', d', hleft, hright⟩ := ends_keepRight_ok.mp h
    cases run_of_ends_leaf hleft
    exact grows_char .any ht hright
  obtain ⟨hmany, hmany1, huntil⟩ :=
    (repetitions_end rules nothing any ending never).1 s hany (grows_char .any) .null
  have hseparated :=
    (repetitions_end rules nothing any ending never).2.1 s hnothing hany hboth .null
  obtain ⟨hends, hcalls, hends'⟩ :=
    (repetitions_end rules nothing nothing ending never).2.2 htotal 3 (.finite 0)
  exact ⟨hmany (.finite 3) .infinite, hmany1, huntil hending.ends,
    (hseparated .take).1 (.finite 0) .infinite,
    (hseparated .leave).2, hends, (hends' htotal .leave).1, hcalls s .null⟩

end Parser

end Descent
