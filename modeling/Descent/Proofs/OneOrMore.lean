import Descent.Proofs.Chains

/-!
# Descent — one or more

There are two ways to ask for at least one item: a repetition that does so by itself, and the one
that counts, with one for its minimum. Their loops have different shapes, and they answer
differently where there is no item: the first one gives back the failure of the attempt, and the
second one says that it fell short. Apart from this they are the same.

* **`Rule.FromOne`** — the three ways in which the first attempt and the two repetitions end
  together, with one lemma for each kind of repetition (`Rule.fromOne_many`,
  `Rule.fromOne_separated`). It holds of single runs, with the same budget for all turns.
* **`Parser.AgreeFromOne`** — what follows for parsers.
* **`Rule.many1_eq_serial`** — one or more items are an item and any number of items.
* **`Parser.oneOrMore_agree`** — the statement for all of them.
-/

namespace Descent

/-! ## What a run yields -/

/-- Whatever the run returns, from any state, has the property. -/
def Run.Yields {σ α : Type} (P : α → Prop) (x : Run σ α) : Prop :=
  ∀ u a, (x u).1 = .ok a → P a

namespace Run

variable {σ α β : Type} {P : β → Prop}

theorem Yields.pure {b : β} (h : P b) : (Pure.pure b : Run σ β).Yields P := by
  intro u a ha
  cases ha
  exact h

theorem Yields.stop (e : Stop) : (Run.stop e : Run σ β).Yields P := by
  intro u a ha
  cases ha

/-- What comes behind a run has the last word. -/
theorem Yields.bind (x : Run σ α) {f : α → Run σ β} (h : ∀ a, (f a).Yields P) :
    (x >>= f).Yields P := by
  intro u b hb
  rw [Run.fst_bind] at hb
  cases hx : (x u).1 with
  | error e => simp [hx] at hb
  | ok a =>
    simp only [hx] at hb
    exact h a _ b hb

end Run

namespace Rule

variable {σ : Type} {s : Stream} {c : Value} {tag : Tag}

/-! ## Loops that have an item -/

/-- A plain loop keeps what it finds gathered. -/
theorem yields_repeatFrom (p : Rule σ) (b : Nat) (most : Count) (w : Sweep) :
    (repeatFrom p b most w).Yields fun w' => w.gathered.length ≤ w'.gathered.length := by
  have honto : w = (Sweep.start w.stream w.context).onto w.gathered := by
    simp [Sweep.onto, Sweep.start]
  rw [honto, repeatFrom_onto]
  refine .bind _ fun w' => .pure ?_
  simp [Sweep.onto, Sweep.start]

/-- A loop with separators keeps what it finds gathered, and adds an item to it if an item is there
and is admitted. -/
theorem yields_separatedFrom (separator p : Rule σ) (trailing : Trailing) (b : Nat) (most : Count)
    (w : Sweep) (attempt : Result) :
    (separatedFrom separator p trailing b most w attempt).Yields fun w' =>
      w.gathered.length + (if attempt.isOk && most.isPositive then 1 else 0) ≤
        w'.gathered.length := by
  induction b generalizing most w attempt with
  | zero =>
    cases attempt with
    | err t e d => exact .pure (by simp [Result.isOk])
    | ok t x d => exact .stop _
  | succ b ih =>
    cases attempt with
    | err t e d => exact .pure (by simp [Result.isOk])
    | ok t x d =>
      unfold separatedFrom
      by_cases hmost : most.isPositive = true
      · simp only [hmost, Result.isOk, Bool.and_true, if_true]
        refine .bind _ fun tried => ?_
        cases tried with
        | err t' e d' => exact .pure (by simp [Sweep.push])
        | ok t' y d' =>
          -- the sweep stands before the separator or behind it, and either way the item is in it
          suffices hbehind : ∀ w₁ : Sweep, w₁.gathered = x :: w.gathered →
              (if most.pred.isPositive then
                p t' d' >>= fun attempt => separatedFrom separator p trailing b most.pred w₁ attempt
              else pure w₁).Yields fun w' => w.gathered.length + 1 ≤ w'.gathered.length from
            hbehind _ (by cases trailing <;> rfl)
          intro w₁ hgathered
          split
          · refine .bind _ fun attempt u w' hw' => ?_
            have hle := ih most.pred w₁ attempt u w' hw'
            simp only [hgathered, List.length_cons] at hle
            omega
          · exact .pure (by simp [hgathered])
      · simp only [hmost, Bool.and_false]
        exact .pure (by simp)

/-- A sweep that holds an item reaches a minimum of one. -/
theorem Sweep.atLeast_one {w : Sweep} (h : 1 ≤ w.gathered.length) :
    w.atLeast (.finite 1) tag = w.succeed := by
  have hreached : (Count.finite 1).isReachedBy w.gathered.length = true := by
    simp only [Count.isReachedBy, Count.le, decide_eq_true_eq]
    omega
  rw [Sweep.atLeast, if_pos hreached]

/-! ## Two repetitions and the first attempt -/

/-- How the first attempt ends, how the repetition that asks for an item by itself does, and how the
one that counts does. They were started at `s` in `c`. -/
inductive FromOne (s : Stream) (c : Value) (tag : Tag) :
    Except Stop Result → Except Stop Result → Except Stop Result → Prop where
  | failed {t : Stream} {e d : Value} :
      FromOne s c tag (.ok (.err t e d)) (.ok (.err t e d)) (.ok (.err s (.shortfall tag []) c))
  | succeeded {t : Stream} {x d : Value} {y : Except Stop Result} (hy : ∀ r, y = .ok r →
      r.isOk = true) :
      FromOne s c tag (.ok (.ok t x d)) y y
  | stopped {e : Stop} : FromOne s c tag (.error e) (.error e) (.error e)

/-- If one of the repetitions is not exhausted, none of the three is. -/
theorem FromOne.not_exhausted {x y z : Except Stop Result} (h : FromOne s c tag x y z)
    (hne : y ≠ .error .exhausted ∨ z ≠ .error .exhausted) :
    x ≠ .error .exhausted ∧ y ≠ .error .exhausted ∧ z ≠ .error .exhausted := by
  cases h with
  | failed => simp
  | succeeded _ => simpa using hne
  | stopped => simpa using hne

/-- Behind a first item, the two repetitions make the same of their loop. -/
theorem FromOne.of_yields {loop : Run σ Sweep} (h : loop.Yields fun w => 1 ≤ w.gathered.length)
    (t : Stream) (x d : Value) (u : σ) :
    FromOne s c tag (.ok (.ok t x d)) ((loop >>= fun w => pure w.succeed) u).1
      ((loop >>= fun w => pure (w.atLeast (.finite 1) tag)) u).1 := by
  rw [Run.fst_map, Run.fst_map]
  cases hloop : (loop u).1 with
  | error e => exact .succeeded nofun
  | ok w =>
    simp only [Except.map, Sweep.atLeast_one (h u w hloop)]
    refine .succeeded fun r hr => ?_
    cases hr
    rfl

/-- Without separators, the repetition that asks for an item by itself has one turn outside of its
loop. -/
theorem fromOne_many (p : Rule σ) (b : Nat) (s : Stream) (c : Value) (u : σ) :
    FromOne s c .many (p s c u).1 (many1 b p s c u).1
      (many (b + 1) (.finite 1) .infinite p s c u).1 := by
  unfold many1 many
  -- the first turn of the loop that counts is the attempt in front of the other loop
  rw [Run.fst_bind, Run.fst_map, fst_repeatFrom_succ,
    if_pos (show Count.infinite.isPositive = true from rfl)]
  simp only [Sweep.start]
  cases (p s c u).1 with
  | error e => exact .stopped
  | ok attempt =>
    cases attempt with
    | err t e d => exact .failed
    | ok t x d =>
      simp only
      rw [← Run.fst_map]
      exact .of_yields (yields_repeatFrom p b .infinite ⟨[x], t, d⟩) t x d _

theorem fromOne_separated (trailing : Trailing) (b : Nat) (separator p : Rule σ) (s : Stream)
    (c : Value) (u : σ) :
    FromOne s c trailing.tag (p s c u).1 (separated1 trailing b separator p s c u).1
      (separated trailing b (.finite 1) .infinite separator p s c u).1 := by
  unfold separated1 separated
  rw [Run.fst_bind, Run.fst_bind]
  cases (p s c u).1 with
  | error e => exact .stopped
  | ok attempt =>
    cases attempt with
    | err t e d => cases b <;> exact .failed
    | ok t x d =>
      exact .of_yields
        (yields_separatedFrom separator p trailing b .infinite (.start s c) (.ok t x d)) t x d _

end Rule

/-! ## One item and any number of items -/

/-- An item put in front of a list of items. -/
def Value.putInFront : Value → Except Fault Value
  | .tuple [x, .list xs] => .ok (.list (x :: xs))
  | v => .ok v

/-- **One or more items are an item and any number of items.** -/
theorem Rule.many1_eq_serial {σ : Type} (b : Nat) (p : Rule σ) :
    many1 b p = (serial [p, many b (.finite 0) .infinite p]).map Value.putInFront := by
  have hzero (w : Sweep) : w.atLeast (.finite 0) .many = w.succeed := by
    rw [Sweep.atLeast, if_pos (Count.isReachedBy_zero _)]
  funext s c
  unfold many1 serial serialOnto serialOnto map many
  rw [bind_assoc]
  congr
  funext attempt
  cases attempt with
  | err t e d => rfl
  | ok t x d =>
    -- the loop that has the first output differs from one that has none by this output alone
    have honto : (Sweep.start s c).push t x d = (Sweep.start t d).onto [x] := rfl
    simp only [honto, repeatFrom_onto, bind_assoc, pure_bind, hzero]
    congr
    funext w
    show pure (w.onto [x]).succeed = pure (.ok w.stream (.list (x :: w.outputs)) w.context)
    simp [Sweep.succeed, Sweep.outputs, Sweep.onto]

namespace Parser

variable {rules : Rules} {p one counted : Parser Factory} {s : Stream} {c : Value} {tag : Tag}

/-! ## Parsers -/

/-- At a stream and in a context, `one`, which asks for an item by itself, and `counted`, which does
so by its minimum, are the same but for the failure: that of `p`, the first attempt, and that of
falling short. -/
structure AgreeFromOne (rules : Rules) (p one counted : Parser Factory) (tag : Tag) (s : Stream)
    (c : Value) : Prop where
  succeeds : ∀ t x d, one.Ends rules s c (.ok (.ok t x d)) ↔
    counted.Ends rules s c (.ok (.ok t x d))
  first : ∀ r, one.Ends rules s c (.ok r) → (r.isOk = true ↔ p.Succeeds rules s c)
  fails : ∀ t e d, one.Ends rules s c (.ok (.err t e d)) ↔ p.Ends rules s c (.ok (.err t e d))
  falls_short : ∀ t e d, counted.Ends rules s c (.ok (.err t e d)) ↔
    p.Fails rules s c ∧ t = s ∧ e = .shortfall tag [] ∧ d = c

section Runs

variable {ones counts : Nat → Nat → Log → Except Stop Result}
  (hone : ∀ x, one.Ends rules s c x ↔ x ≠ .error .exhausted ∧ ∃ n b log, ones n b log = x)
  (hcounted : ∀ x, counted.Ends rules s c x ↔ x ≠ .error .exhausted ∧ ∃ n b log, counts n b log = x)
  (h : ∀ n b log, Rule.FromOne s c tag (p.direct rules n s c log).1 (ones n b log) (counts n b log))

include hone hcounted h

/-- Runs that are not exhausted tell the ends of all three parsers. -/
theorem ends_of_fromOne {n b : Nat} {log : Log}
    (hne : ones n b log ≠ .error .exhausted ∨ counts n b log ≠ .error .exhausted) :
    p.Ends rules s c (p.direct rules n s c log).1 ∧ one.Ends rules s c (ones n b log) ∧
      counted.Ends rules s c (counts n b log) := by
  obtain ⟨hfirst, hones, hcounts⟩ := (h n b log).not_exhausted hne
  exact ⟨ends_of_direct rfl hfirst, (hone _).mpr ⟨hones, n, b, log, rfl⟩,
    (hcounted _).mpr ⟨hcounts, n, b, log, rfl⟩⟩

/-- Where the repetition that asks for an item by itself ends, so do the first attempt and the one
that counts. -/
theorem fromOne_of_one {y : Except Stop Result} (hends : one.Ends rules s c y) :
    ∃ x z, p.Ends rules s c x ∧ counted.Ends rules s c z ∧ Rule.FromOne s c tag x y z := by
  obtain ⟨hne, n, b, log, rfl⟩ := (hone y).mp hends
  obtain ⟨hfirst, _, hcounts⟩ := ends_of_fromOne hone hcounted h (.inl hne)
  exact ⟨_, _, hfirst, hcounts, h n b log⟩

/-- Where the repetition that counts ends, so do the first attempt and the one that asks for an item
by itself. -/
theorem fromOne_of_counted {z : Except Stop Result} (hends : counted.Ends rules s c z) :
    ∃ x y, p.Ends rules s c x ∧ one.Ends rules s c y ∧ Rule.FromOne s c tag x y z := by
  obtain ⟨hne, n, b, log, rfl⟩ := (hcounted z).mp hends
  obtain ⟨hfirst, hones, _⟩ := ends_of_fromOne hone hcounted h (.inr hne)
  exact ⟨_, _, hfirst, hones, h n b log⟩

/-- Where the first attempt fails, both repetitions end. -/
theorem ends_of_failed {t : Stream} {e d : Value} (hends : p.Ends rules s c (.ok (.err t e d))) :
    one.Ends rules s c (.ok (.err t e d)) ∧
      counted.Ends rules s c (.ok (.err s (.shortfall tag []) c)) := by
  obtain ⟨_, n, hrun⟩ := hends
  have hfrom := h n 0 #[]
  rw [hrun] at hfrom
  generalize hones : ones n 0 #[] = y at hfrom
  generalize hcounts : counts n 0 #[] = z at hfrom
  cases hfrom with
  | failed =>
    exact ⟨(hone _).mpr ⟨nofun, n, 0, #[], hones⟩, (hcounted _).mpr ⟨nofun, n, 0, #[], hcounts⟩⟩

/-- Parsers agree if their runs do, with whatever budgets. -/
theorem AgreeFromOne.of_runs : AgreeFromOne rules p one counted tag s c where
  succeeds t x d := by
    constructor
    · intro hends
      obtain ⟨_, z, _, hcounts, hfrom⟩ := fromOne_of_one hone hcounted h hends
      cases hfrom with
      | succeeded _ => exact hcounts
    · intro hends
      obtain ⟨_, y, _, hones, hfrom⟩ := fromOne_of_counted hone hcounted h hends
      cases hfrom with
      | succeeded _ => exact hones
  first r hends := by
    -- the form with one is what tells whether the first repetition has failed
    obtain ⟨_, _, hfirst, _, hfrom⟩ := fromOne_of_one hone hcounted h hends
    cases hfrom with
    | failed =>
      exact ⟨nofun, fun hsucceeds => absurd hsucceeds (Fails.not_succeeds ⟨_, _, _, hfirst⟩)⟩
    | succeeded hy => exact ⟨fun _ => ⟨_, _, _, hfirst⟩, fun _ => hy r rfl⟩
  fails t e d := by
    constructor
    · intro hends
      obtain ⟨_, _, hfirst, _, hfrom⟩ := fromOne_of_one hone hcounted h hends
      cases hfrom with
      | failed => exact hfirst
      | succeeded hy => cases hy _ rfl
    · intro hends
      exact (ends_of_failed hone hcounted h hends).1
  falls_short t e d := by
    constructor
    · intro hends
      obtain ⟨_, _, hfirst, _, hfrom⟩ := fromOne_of_counted hone hcounted h hends
      cases hfrom with
      | failed => exact ⟨⟨_, _, _, hfirst⟩, rfl, rfl, rfl⟩
      | succeeded hy => cases hy _ rfl
    · rintro ⟨⟨_, _, _, hends⟩, ht, he, hd⟩
      rw [ht, he, hd]
      exact (ends_of_failed hone hcounted h hends).2

end Runs

/-- **One or more.** Let parsers be run at any stream and in any context. One or more items, with or
without separators, succeed where a repetition with a minimum of one does, with the same output,
stream and context; if they return at all, they succeed exactly if the item does. Where they fail it
is with the very failure of the item, and the repetition with the minimum falls short with no
output, at the stream and in the context of the start. And one or more items are the item with any
number of items behind it, its output put in front of the others, in every run and for every log. -/
theorem oneOrMore_agree (rules : Rules) (separator p : Parser Factory) (s : Stream) (c : Value) :
    AgreeFromOne rules p (.unary .many1 p) (.unary (.many (.finite 1) .infinite) p) .many s c ∧
    (∀ trailing : Rule.Trailing, AgreeFromOne rules p (.binary (.separated1 trailing) separator p)
      (.binary (.separated trailing (.finite 1) .infinite) separator p) trailing.tag s c) ∧
    ∀ budget, (Parser.unary .many1 p).direct rules budget =
      (Parser.unary (.map Value.putInFront)
        (.serial [p, .unary (.many (.finite 0) .infinite) p])).direct rules budget := by
  refine ⟨?_, fun trailing => ?_, fun budget => ?_⟩
  · refine .of_runs (fun x => ends_unary .many1 0) (fun x => ends_unary _ 1) fun n b log => ?_
    exact Rule.fromOne_many (p.direct rules n) b s c log
  · refine .of_runs (fun x => ends_binary _) (fun x => ends_binary _) fun n b log => ?_
    exact Rule.fromOne_separated trailing b (separator.direct rules n) (p.direct rules n) s c log
  · cases budget with
    | zero => rfl
    | succ budget => exact Rule.many1_eq_serial budget (p.direct rules (budget + 1))

end Parser

end Descent
