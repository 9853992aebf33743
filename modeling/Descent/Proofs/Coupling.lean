import Descent.Meaning
import Mathlib.Data.List.Forall2

/-!
# Descent — two runs side by side

Most properties of the combinators are kept by all of them for one reason: a combinator only hands
streams, contexts and outputs on from one rule to the next, and never looks inside. This module says
so once. A `Coupling` relates the streams, contexts, outputs, errors and states of two runs; if the
parts of two rules are coupled, so are the rules that any combinator makes of them.

* **`Coupling.Runs`** — two runs end alike: both return, with related values, or both stop.
* **`Coupling.Rules`** — two rules, started at related streams in related contexts, are coupled
  runs.
* **one lemma for each combinator** — the loops by induction on their budget, with `Coupling.Sweeps`
  as invariant.
* **`Coupling.unary` / `Coupling.binary`** — the same for the operations of a grammar, with what
  each of them asks.

An invariant of single runs is a coupling of a run with itself.
-/

namespace Descent

/-- What relates two runs, and the few values that every combinator may produce. -/
structure Coupling (σ τ : Type) where
  stream : Stream → Stream → Prop
  context : Value → Value → Prop
  output : Value → Value → Prop
  error : Value → Value → Prop
  /-- The states while both runs go on. -/
  state : σ → τ → Prop
  /-- The states where both runs have stopped. -/
  halted : σ → τ → Prop
  stop : Stop → Stop → Prop
  halt : ∀ {u v}, state u v → halted u v
  exhausted : stop .exhausted .exhausted
  null : output .null .null
  tuple : ∀ {xs ys}, List.Forall₂ output xs ys → output (.tuple xs) (.tuple ys)
  list : ∀ {xs ys}, List.Forall₂ output xs ys → output (.list xs) (.list ys)
  shortfall : ∀ {xs ys} (t : Tag), List.Forall₂ output xs ys →
    error (.shortfall t xs) (.shortfall t ys)

namespace Coupling

variable {σ τ α β γ δ : Type} (K : Coupling σ τ)

/-! ## Coupled runs -/

/-- Two ends of runs: both returned, or both were stopped. -/
inductive Ends (R : α → β → Prop) : Except Stop α × σ → Except Stop β × τ → Prop where
  | returned {a b u v} (hr : R a b) (hs : K.state u v) : Ends R (.ok a, u) (.ok b, v)
  | stopped {e f u v} (he : K.stop e f) (hs : K.halted u v) : Ends R (.error e, u) (.error f, v)

/-- Two runs that end alike from related states. -/
def Runs (R : α → β → Prop) (x : Run σ α) (y : Run τ β) : Prop :=
  ∀ u v, K.state u v → K.Ends R (x u) (y v)

/-- Two computations that may be at fault: both are, or neither is and their values are related. -/
inductive Excepts (R : α → β → Prop) : Except Fault α → Except Fault β → Prop where
  | ok {a b} (hr : R a b) : Excepts R (.ok a) (.ok b)
  | error {f g} (he : K.stop (.fault f) (.fault g)) : Excepts R (.error f) (.error g)

/-- Two results: both successes or both failures, with related parts. -/
inductive Results : Result → Result → Prop where
  | ok {s t x y c d} (hs : K.stream s t) (hx : K.output x y) (hc : K.context c d) :
      Results (.ok s x c) (.ok t y d)
  | err {s t x y c d} (hs : K.stream s t) (hx : K.error x y) (hc : K.context c d) :
      Results (.err s x c) (.err t y d)

/-- Two rules that run alike. -/
def Rules (p : Rule σ) (q : Rule τ) : Prop :=
  ∀ ⦃s t c d⦄, K.stream s t → K.context c d → K.Runs K.Results (p s c) (q t d)

variable {K} {R : α → β → Prop} {S : γ → δ → Prop}

theorem Runs.pure {a : α} {b : β} (h : R a b) : K.Runs R (pure a) (pure b) :=
  fun _ _ hs => .returned h hs

/-- Coupled runs go on as coupled runs. -/
theorem Runs.bind {x : Run σ α} {y : Run τ β} {f : α → Run σ γ} {g : β → Run τ δ}
    (hxy : K.Runs R x y) (hfg : ∀ a b, R a b → K.Runs S (f a) (g b)) :
    K.Runs S (x >>= f) (y >>= g) := by
  intro u v huv
  rw [Run.bind_apply, Run.bind_apply]
  cases hx : x u with
  | mk a u' =>
    cases hy : y v with
    | mk b v' =>
      have hend := hxy u v huv
      rw [hx, hy] at hend
      cases hend with
      | returned hr hs => exact hfg _ _ hr _ _ hs
      | stopped he hs => exact .stopped he hs

/-- Both runs are stopped. -/
theorem Runs.stop {e f : Stop} (h : K.stop e f) :
    K.Runs R (Run.stop e : Run σ α) (Run.stop f : Run τ β) :=
  fun _ _ hs => .stopped h (K.halt hs)

/-- Computations without state are values or faults, and leave the states as they are. -/
theorem Runs.lift {x : Except Fault α} {y : Except Fault β} (h : K.Excepts R x y) :
    K.Runs R (Run.lift x : Run σ α) (Run.lift y : Run τ β) := by
  cases h with
  | ok hr => exact .pure hr
  | error he => exact .stop he

/-- Both states are changed. -/
theorem Runs.update {f : σ → σ} {g : τ → τ} (h : ∀ u v, K.state u v → K.state (f u) (g v)) :
    K.Runs (fun _ _ => True) (Run.update f) (Run.update g) :=
  fun u v huv => .returned trivial (h u v huv)

/-- A computation with itself, where the faults are coupled with themselves. -/
theorem Excepts.refl {R : α → α → Prop} {x : Except Fault α} (hok : ∀ a, x = .ok a → R a a)
    (herror : ∀ f, x = .error f → K.stop (.fault f) (.fault f)) : K.Excepts R x x := by
  cases x with
  | ok a => exact .ok (hok a rfl)
  | error f => exact .error (herror f rfl)

/-! ## Sequencing and choice -/

variable {p q r : Rule σ} {p' q' r' : Rule τ}

/-- The functions are applied to related outputs, and may be at fault together. -/
theorem Rules.map {f g : Value → Except Fault Value} (hp : K.Rules p p')
    (hf : ∀ x y, K.output x y → K.Excepts K.output (f x) (g y)) : K.Rules (p.map f) (p'.map g) := by
  intro s t c d hs hc
  unfold Rule.map
  refine (hp hs hc).bind ?_
  rintro _ _ (⟨hs, hx, hc⟩ | ⟨hs, he, hc⟩)
  · refine (Runs.lift (hf _ _ hx)).bind ?_
    intro x y hxy
    exact .pure (.ok hs hxy hc)
  · exact .pure (.err hs he hc)

/-- Only failures are rewritten, and there are failures on both sides or on neither. -/
theorem Rules.mapError {f g : Value → Except Fault Value} (hp : K.Rules p p')
    (hf : ∀ x y, K.error x y → K.Excepts K.error (f x) (g y)) :
    K.Rules (p.mapError f) (p'.mapError g) := by
  intro s t c d hs hc
  unfold Rule.mapError
  refine (hp hs hc).bind ?_
  rintro _ _ (⟨hs, hx, hc⟩ | ⟨hs, he, hc⟩)
  · exact .pure (.ok hs hx hc)
  · refine (Runs.lift (hf _ _ he)).bind ?_
    intro x y hxy
    exact .pure (.err hs hxy hc)

/-- Related outputs select coupled rules, which go on from where the first ones ended. -/
theorem Rules.bind {f : Value → Rule σ} {g : Value → Rule τ} (hp : K.Rules p p')
    (hf : ∀ x y, K.output x y → K.Rules (f x) (g y)) : K.Rules (p.bind f) (p'.bind g) := by
  intro s t c d hs hc
  unfold Rule.bind
  refine (hp hs hc).bind ?_
  rintro _ _ (⟨hs, hx, hc⟩ | ⟨hs, he, hc⟩)
  · exact hf _ _ hx hs hc
  · exact .pure (.err hs he hc)

/-- The pair of the two outputs is a tuple on either side. -/
theorem Rules.both (hp : K.Rules p p') (hq : K.Rules q q') : K.Rules (p.both q) (p'.both q') := by
  intro s t c d hs hc
  unfold Rule.both
  refine (hp hs hc).bind ?_
  rintro _ _ (⟨hs, hx, hc⟩ | ⟨hs, he, hc⟩)
  · refine (hq hs hc).bind ?_
    rintro _ _ (⟨hs, hy, hc⟩ | ⟨hs, he, hc⟩)
    · exact .pure (.ok hs (K.tuple (.cons hx (.cons hy .nil))) hc)
    · exact .pure (.err hs he hc)
  · exact .pure (.err hs he hc)

/-- The output of the first part is kept for the place where the second one ended. -/
theorem Rules.keepLeft (hp : K.Rules p p') (hq : K.Rules q q') :
    K.Rules (p.keepLeft q) (p'.keepLeft q') := by
  intro s t c d hs hc
  unfold Rule.keepLeft
  refine (hp hs hc).bind ?_
  rintro _ _ (⟨hs, hx, hc⟩ | ⟨hs, he, hc⟩)
  · refine (hq hs hc).bind ?_
    rintro _ _ (⟨hs, hy, hc⟩ | ⟨hs, he, hc⟩)
    · exact .pure (.ok hs hx hc)
    · exact .pure (.err hs he hc)
  · exact .pure (.err hs he hc)

theorem Rules.keepRight (hp : K.Rules p p') (hq : K.Rules q q') :
    K.Rules (p.keepRight q) (p'.keepRight q') := by
  intro s t c d hs hc
  unfold Rule.keepRight
  refine (hp hs hc).bind ?_
  rintro _ _ (⟨hs, hx, hc⟩ | ⟨hs, he, hc⟩)
  · exact hq hs hc
  · exact .pure (.err hs he hc)

/-- Three parts in a row, and the output of the last one to be opened is kept until it is closed. -/
theorem Rules.between (hp : K.Rules p p') (hq : K.Rules q q') (hr : K.Rules r r') :
    K.Rules (Rule.between p q r) (Rule.between p' q' r') := by
  intro s t c d hs hc
  unfold Rule.between
  refine (hp hs hc).bind ?_
  rintro _ _ (⟨hs, hx, hc⟩ | ⟨hs, he, hc⟩)
  · refine (hr hs hc).bind ?_
    rintro _ _ (⟨hs, hy, hc⟩ | ⟨hs, he, hc⟩)
    · refine (hq hs hc).bind ?_
      rintro _ _ (⟨hs, hz, hc⟩ | ⟨hs, he, hc⟩)
      · exact .pure (.ok hs hy hc)
      · exact .pure (.err hs he hc)
    · exact .pure (.err hs he hc)
  · exact .pure (.err hs he hc)

/-- A sequence. The outputs gathered before are held in reverse on both sides. -/
theorem Rules.serialOnto {ps : List (Rule σ)} {qs : List (Rule τ)} (h : List.Forall₂ K.Rules ps qs)
    {xs ys : List Value} (hxy : List.Forall₂ K.output xs ys) :
    K.Rules (Rule.serialOnto xs ps) (Rule.serialOnto ys qs) := by
  induction h generalizing xs ys with
  | nil =>
    intro s t c d hs hc
    exact .pure (.ok hs (K.tuple (List.rel_reverse hxy)) hc)
  | cons hp _ ih =>
    intro s t c d hs hc
    unfold Rule.serialOnto
    refine (hp hs hc).bind ?_
    rintro _ _ (⟨hs, hx, hc⟩ | ⟨hs, he, hc⟩)
    · exact ih (.cons hx hxy) hs hc
    · exact .pure (.err hs he hc)

theorem Rules.serial {ps : List (Rule σ)} {qs : List (Rule τ)} (h : List.Forall₂ K.Rules ps qs) :
    K.Rules (Rule.serial ps) (Rule.serial qs) :=
  Rules.serialOnto h .nil

/-- The second parts are run on both sides or on neither. -/
theorem Rules.orElse (hp : K.Rules p p') (hq : K.Rules q q') :
    K.Rules (p.orElse q) (p'.orElse q') := by
  intro s t c d hs hc
  unfold Rule.orElse
  refine (hp hs hc).bind ?_
  rintro _ _ (⟨hs', hx, hc'⟩ | ⟨hs', he, hc'⟩)
  · exact .pure (.ok hs' hx hc')
  · -- the second rule starts where the first one did, in stream and context
    exact hq hs hc

/-- The induction is on the list of alternatives, two by two. -/
theorem Rules.choice {ps : List (Rule σ)} {qs : List (Rule τ)} (hp : K.Rules p p')
    (h : List.Forall₂ K.Rules ps qs) : K.Rules (Rule.choice p ps) (Rule.choice p' qs) := by
  induction h generalizing p p' with
  | nil => exact hp
  | cons hq _ ih =>
    intro s t c d hs hc
    unfold Rule.choice
    refine (hp hs hc).bind ?_
    rintro _ _ (⟨hs', hx, hc'⟩ | ⟨hs', he, hc'⟩)
    · exact .pure (.ok hs' hx hc')
    · exact ih hq hs hc

/-- A failed attempt is undone in the stream and kept in the context, so the two are related
apart. -/
theorem Rules.optional (hp : K.Rules p p') : K.Rules p.optional p'.optional := by
  intro s t c d hs hc
  unfold Rule.optional
  refine (hp hs hc).bind ?_
  rintro _ _ (⟨hs', hx, hc'⟩ | ⟨hs', he, hc'⟩)
  · exact .pure (.ok hs' hx hc')
  · exact .pure (.ok hs K.null hc')

/-! ## Repetition

The invariant of every loop: what was gathered is related item by item, and so is the place where
the loop stands. -/

/-- Two loops that have gathered alike and stand alike. -/
structure Sweeps (K : Coupling σ τ) (w w' : Rule.Sweep) : Prop where
  gathered : List.Forall₂ K.output w.gathered w'.gathered
  stream : K.stream w.stream w'.stream
  context : K.context w.context w'.context

variable {w w' : Rule.Sweep}

theorem Sweeps.start {s t : Stream} {c d : Value} (hs : K.stream s t) (hc : K.context c d) :
    K.Sweeps (.start s c) (.start t d) :=
  ⟨.nil, hs, hc⟩

/-- Related outputs are gathered on both sides, and both loops go on from the ends of the items. -/
theorem Sweeps.push {s t : Stream} {x y c d : Value} (h : K.Sweeps w w') (hs : K.stream s t)
    (hx : K.output x y) (hc : K.context c d) : K.Sweeps (w.push s x c) (w'.push t y d) :=
  ⟨.cons hx h.gathered, hs, hc⟩

/-- Two loops that go on from elsewhere with what they have. -/
theorem Sweeps.moveTo {s t : Stream} {c d : Value} (h : K.Sweeps w w') (hs : K.stream s t)
    (hc : K.context c d) :
    K.Sweeps { w with stream := s, context := c } { w' with stream := t, context := d } :=
  ⟨h.gathered, hs, hc⟩

/-- The outputs come out in order, and are related as lists. -/
theorem Sweeps.succeed (h : K.Sweeps w w') : K.Results w.succeed w'.succeed :=
  .ok h.stream (K.list (List.rel_reverse h.gathered)) h.context

/-- As many outputs are gathered on both sides, so the minimum is reached by both or by neither. -/
theorem Sweeps.atLeast (h : K.Sweeps w w') (least : Count) (tag : Tag) :
    K.Results (w.atLeast least tag) (w'.atLeast least tag) := by
  unfold Rule.Sweep.atLeast
  rw [h.gathered.length_eq]
  split
  · exact h.succeed
  · exact .err h.stream (K.shortfall tag (List.rel_reverse h.gathered)) h.context

/-- The induction is on the budget, which is the same for both loops. -/
theorem Rules.repeatFrom (hp : K.Rules p p') (budget : Nat) (most : Count) (hw : K.Sweeps w w') :
    K.Runs K.Sweeps (Rule.repeatFrom p budget most w) (Rule.repeatFrom p' budget most w') := by
  induction budget generalizing most w w' with
  | zero => exact .stop K.exhausted
  | succ budget ih =>
    unfold Rule.repeatFrom
    split
    · refine (hp hw.stream hw.context).bind ?_
      rintro _ _ (⟨hs, hx, hc⟩ | ⟨hs, he, hc⟩)
      · exact ih most.pred (hw.push hs hx hc)
      · -- a failed turn leaves no trace: the loop ends where it stood before
        exact .pure hw
    · exact .pure hw

theorem Rules.many (hp : K.Rules p p') (budget : Nat) (least most : Count) :
    K.Rules (Rule.many budget least most p) (Rule.many budget least most p') := by
  intro s t c d hs hc
  unfold Rule.many
  refine (hp.repeatFrom budget most (.start hs hc)).bind ?_
  intro w w' hw
  exact .pure (hw.atLeast least .many)

/-- Behind related first items the loops go on alike. -/
theorem Rules.many1 (hp : K.Rules p p') (budget : Nat) :
    K.Rules (Rule.many1 budget p) (Rule.many1 budget p') := by
  intro s t c d hs hc
  unfold Rule.many1
  refine (hp hs hc).bind ?_
  rintro _ _ (⟨hs', hx, hc'⟩ | ⟨hs', he, hc'⟩)
  · refine (hp.repeatFrom budget .infinite ((Sweeps.start hs hc).push hs' hx hc')).bind ?_
    intro w w' hw
    exact .pure hw.succeed
  · exact .pure (.err hs' he hc')

/-- Both sides find the end in the same turn, or fail in the same item. -/
theorem Rules.untilFrom (hp : K.Rules p p') (hq : K.Rules q q') (budget : Nat)
    (hw : K.Sweeps w w') :
    K.Runs K.Results (Rule.untilFrom p q budget w) (Rule.untilFrom p' q' budget w') := by
  induction budget generalizing w w' with
  | zero => exact .stop K.exhausted
  | succ budget ih =>
    unfold Rule.untilFrom
    refine (hq hw.stream hw.context).bind ?_
    rintro _ _ (⟨hs, hx, hc⟩ | ⟨hs, he, hc⟩)
    · exact .pure hw.succeed
    · refine (hp hw.stream hw.context).bind ?_
      rintro _ _ (⟨hs, hx, hc⟩ | ⟨hs, he, hc⟩)
      · exact ih (hw.push hs hx hc)
      · exact .pure (.err hs he hc)

theorem Rules.manyUntil (hp : K.Rules p p') (hq : K.Rules q q') (budget : Nat) :
    K.Rules (Rule.manyUntil budget p q) (Rule.manyUntil budget p' q') :=
  fun _ _ _ _ hs hc => hp.untilFrom hq budget (.start hs hc)

/-- The loop with separators, from two related attempts at an item on. -/
theorem Rules.separatedFrom (hq : K.Rules q q') (hp : K.Rules p p') (trailing : Rule.Trailing)
    (budget : Nat) (most : Count) (hw : K.Sweeps w w') {a b : Result} (hab : K.Results a b) :
    K.Runs K.Sweeps (Rule.separatedFrom q p trailing budget most w a)
      (Rule.separatedFrom q' p' trailing budget most w' b) := by
  -- the attempt is part of the loop's state, so it is generalized along with what was gathered
  induction budget generalizing most w w' a b with
  | zero =>
    cases hab with
    | ok => exact .stop K.exhausted
    | err => exact .pure hw
  | succ budget ih =>
    cases hab with
    | err => exact .pure hw
    | ok hs hx hc =>
      have hw' := hw.push hs hx hc
      unfold Rule.separatedFrom
      split
      · refine (hq hs hc).bind ?_
        rintro _ _ (⟨hs', hy, hc'⟩ | ⟨hs', he, hc'⟩)
        · cases trailing with
          | leave =>
            -- the separator counts only with an item behind it, so the loop still stands before it
            simp only
            split
            · refine (hp hs' hc').bind ?_
              intro a b hab
              exact ih most.pred hw' hab
            · exact .pure hw'
          | take =>
            -- the loop moves behind the separator before the next item is tried
            have hw'' := hw'.moveTo hs' hc'
            simp only
            split
            · refine (hp hs' hc').bind ?_
              intro a b hab
              exact ih most.pred hw'' hab
            · exact .pure hw''
        · exact .pure hw'
      · exact .pure hw

/-- The first item is an attempt like the others, made at the start. -/
theorem Rules.separated (hq : K.Rules q q') (hp : K.Rules p p') (trailing : Rule.Trailing)
    (budget : Nat) (least most : Count) :
    K.Rules (Rule.separated trailing budget least most q p)
      (Rule.separated trailing budget least most q' p') := by
  intro s t c d hs hc
  unfold Rule.separated
  refine (hp hs hc).bind ?_
  intro a b hab
  refine (hq.separatedFrom hp trailing budget most (.start hs hc) hab).bind ?_
  intro w w' hw
  exact .pure (hw.atLeast least trailing.tag)

theorem Rules.separated1 (hq : K.Rules q q') (hp : K.Rules p p') (trailing : Rule.Trailing)
    (budget : Nat) :
    K.Rules (Rule.separated1 trailing budget q p) (Rule.separated1 trailing budget q' p') := by
  intro s t c d hs hc
  unfold Rule.separated1
  refine (hp hs hc).bind ?_
  rintro _ _ (⟨hs', hx, hc'⟩ | ⟨hs', he, hc'⟩)
  · refine (hq.separatedFrom hp trailing budget .infinite (.start hs hc) (.ok hs' hx hc')).bind ?_
    intro w w' hw
    exact .pure hw.succeed
  · exact .pure (.err hs' he hc')

/-! ## Operations of a grammar

Every operation on two rules couples as it stands. Of those on one rule, the callbacks, the skipping
of blanks, the tracking of positions and the log ask something of the coupling. -/

/-- The context in which a tracked rule runs. -/
def trackedContext (s : Stream) (c : Value) : Except Fault Value :=
  match c with
  | .table _ => .ok (Rule.withTracker (.start s) c)
  | _ => .error (.contextNotTable c.typeName)

/-- Without a table there is nowhere to put a tracker. -/
theorem trackedContext_of_not_table {c : Value} (h : ∀ entries, c ≠ .table entries) (s : Stream) :
    trackedContext s c = .error (.contextNotTable c.typeName) := by
  unfold trackedContext
  split
  · exact absurd rfl (h _)
  · rfl

/-- Tracking is a change of the context in front of the rule. -/
theorem tracked_eq (p : Rule σ) (s : Stream) (c : Value) :
    Rule.tracked p s c = (do let c ← Run.lift (trackedContext s c); p s c) := by
  cases c <;> rfl

/-- So it is enough that the changed contexts are related, or that neither can be changed. -/
theorem Rules.tracked (hp : K.Rules p p')
    (h : ∀ ⦃s t c d⦄, K.stream s t → K.context c d →
      K.Excepts K.context (trackedContext s c) (trackedContext t d)) :
    K.Rules (Rule.tracked p) (Rule.tracked p') := by
  intro s t c d hs hc
  rw [tracked_eq, tracked_eq]
  refine (Runs.lift (h hs hc)).bind ?_
  intro c d hc
  exact hp hs hc

/-- It is enough that blanks are skipped from related streams to related streams. -/
theorem Rules.trimmed (hp : K.Rules p p')
    (h : ∀ ⦃s t⦄, K.stream s t → K.Excepts K.stream s.skipBlanks t.skipBlanks) :
    K.Rules (Rule.trimmed p) (Rule.trimmed p') := by
  intro s t c d hs hc
  unfold Rule.trimmed
  refine (Runs.lift (h hs)).bind ?_
  intro s t hs
  exact hp hs hc

/-- Two logs that take every event of a label: those of trying at related streams and of ending with
related results. -/
structure Notes (K : Coupling σ τ) (note : Event → σ → σ) (note' : Event → τ → τ) (label : Text) :
    Prop where
  atStart : ∀ ⦃s t⦄, K.stream s t → ∀ u v, K.state u v →
    K.state (note (.atStart label s) u) (note' (.atStart label t) v)
  atEnd : ∀ ⦃a b⦄, K.Results a b → ∀ u v, K.state u v →
    K.state (note (.atEnd label a) u) (note' (.atEnd label b) v)

/-- Equal streams, outputs and errors make equal events, whatever the contexts are. -/
theorem Notes.of_eq {K : Coupling σ σ} {note : Event → σ → σ} {label : Text}
    (hstream : ∀ s t, K.stream s t → s = t) (houtput : ∀ x y, K.output x y → x = y)
    (herror : ∀ x y, K.error x y → x = y) (hstate : ∀ u v, K.state u v ↔ u = v) :
    K.Notes note note label where
  atStart := by
    intro s t hs u v huv
    rw [hstate] at huv ⊢
    rw [hstream s t hs, huv]
  atEnd := by
    rintro _ _ (⟨hs, hx, _⟩ | ⟨hs, hx, _⟩) u v huv
    · rw [hstate] at huv ⊢
      rw [Event.atEnd, Event.atEnd, hstream _ _ hs, houtput _ _ hx, huv]
    · rw [hstate] at huv ⊢
      rw [Event.atEnd, Event.atEnd, hstream _ _ hs, herror _ _ hx, huv]

/-- The rule runs between two entries of the log. -/
theorem Rules.traced {note : Event → σ → σ} {note' : Event → τ → τ} {label : Text}
    (hp : K.Rules p p') (h : K.Notes note note' label) :
    K.Rules (Rule.traced note label p) (Rule.traced note' label p') := by
  intro s t c d hs hc
  unfold Rule.traced
  refine (Runs.update (h.atStart hs)).bind ?_
  intro _ _ _
  refine (hp hs hc).bind ?_
  intro a b hab
  refine (Runs.update (h.atEnd hab)).bind ?_
  intro _ _ _
  exact .pure hab

/-- What a coupling must grant to an operation on one rule. Nothing is said of hooks. -/
def Allows (K : Coupling σ τ) (note : Event → σ → σ) (note' : Event → τ → τ) : Unary → Prop
  | .map f => ∀ x y, K.output x y → K.Excepts K.output (f x) (f y)
  | .mapError f => ∀ x y, K.error x y → K.Excepts K.error (f x) (f y)
  | .trimmed => ∀ ⦃s t⦄, K.stream s t → K.Excepts K.stream s.skipBlanks t.skipBlanks
  | .tracked => ∀ ⦃s t c d⦄, K.stream s t → K.context c d →
      K.Excepts K.context (trackedContext s c) (trackedContext t d)
  | .traced label => K.Notes note note' label
  | .optional | .many _ _ | .many1 | .context _ => True
  | .hooked _ => False

/-- Where related outputs are equal outputs, and related errors equal errors, callbacks ask for
nothing. -/
theorem allows_of_eq {note : Event → σ → σ} {note' : Event → τ → τ} {op : Unary}
    (houtput : ∀ x y, K.output x y ↔ x = y) (herror : ∀ x y, K.error x y ↔ x = y)
    (hfault : ∀ f, K.stop (.fault f) (.fault f)) (hhooked : ∀ hook, op ≠ .hooked hook)
    (htrimmed : ∀ ⦃s t⦄, K.stream s t → K.Excepts K.stream s.skipBlanks t.skipBlanks)
    (htracked : op = .tracked → ∀ ⦃s t c d⦄, K.stream s t → K.context c d →
      K.Excepts K.context (trackedContext s c) (trackedContext t d))
    (htraced : ∀ label, op = .traced label → K.Notes note note' label) :
    K.Allows note note' op := by
  cases op with
  | map f =>
    -- equal outputs have equal images, or raise the same
    intro x y hxy
    rw [houtput] at hxy
    subst hxy
    exact .refl (fun _ _ => (houtput _ _).mpr rfl) fun _ _ => hfault _
  | mapError f =>
    intro x y hxy
    rw [herror] at hxy
    subst hxy
    exact .refl (fun _ _ => (herror _ _).mpr rfl) fun _ _ => hfault _
  | trimmed => exact htrimmed
  | tracked => exact htracked rfl
  | traced label => exact htraced label rfl
  | optional => trivial
  | many least most => trivial
  | many1 => trivial
  | context initial => trivial
  | hooked hook => exact absurd rfl (hhooked hook)

/-- Operations on one rule take coupled rules to coupled rules. -/
theorem Rules.unary {note : Event → σ → σ} {note' : Event → τ → τ} {op : Unary}
    (hop : K.Allows note note' op) (budget : Nat) (hp : K.Rules p p') :
    K.Rules (op.toRule note budget p) (op.toRule note' budget p') := by
  cases op with
  | map f => exact hp.map hop
  | mapError f => exact hp.mapError hop
  | optional => exact hp.optional
  | many least most => exact hp.many budget least most
  | many1 => exact hp.many1 budget
  | trimmed => exact hp.trimmed hop
  | tracked => exact hp.tracked hop
  | context initial => exact hp
  | traced label => exact hp.traced hop
  | hooked hook => exact hop.elim

/-- Operations on two rules take coupled rules to coupled rules. -/
theorem Rules.binary (op : Binary) (budget : Nat) (hp : K.Rules p p') (hq : K.Rules q q') :
    K.Rules (op.toRule budget p q) (op.toRule budget p' q') := by
  cases op with
  | both => exact hp.both hq
  | keepLeft => exact hp.keepLeft hq
  | keepRight => exact hp.keepRight hq
  | orElse => exact hp.orElse hq
  | manyUntil => exact hp.manyUntil hq budget
  | separated trailing least most => exact hp.separated hq trailing budget least most
  | separated1 trailing => exact hp.separated1 hq trailing budget

/-! ## A run with itself

An invariant on streams and one on contexts, kept by single runs. -/

section

variable {xs ys : List Value}

theorem tuple_eq (h : List.Forall₂ Eq xs ys) : Value.tuple xs = .tuple ys := by
  rw [List.forall₂_eq_eq_eq] at h
  rw [h]

theorem list_eq (h : List.Forall₂ Eq xs ys) : Value.list xs = .list ys := by
  rw [List.forall₂_eq_eq_eq] at h
  rw [h]

theorem shortfall_eq (t : Tag) (h : List.Forall₂ Eq xs ys) :
    Value.shortfall t xs = .shortfall t ys := by
  rw [List.forall₂_eq_eq_eq] at h
  rw [h]

end

/-- Equal runs, whose streams and contexts have a property each. -/
def alone (S : Stream → Prop) (C : Value → Prop) : Coupling σ σ where
  stream s t := s = t ∧ S s
  context c d := c = d ∧ C c
  output := Eq
  error := Eq
  state := Eq
  halted := Eq
  stop := Eq
  halt h := h
  exhausted := rfl
  null := rfl
  tuple := @tuple_eq
  list := @list_eq
  shortfall := @shortfall_eq

variable {S : Stream → Prop} {C : Value → Prop}

/-- A result is coupled with itself if its stream and its context have their properties. -/
theorem Results.alone {r : Result} (hs : S r.stream) (hc : C r.context) :
    (alone S C : Coupling σ σ).Results r r := by
  cases r with
  | ok s x c => exact .ok ⟨rfl, hs⟩ rfl ⟨rfl, hc⟩
  | err s e c => exact .err ⟨rfl, hs⟩ rfl ⟨rfl, hc⟩

theorem Notes.alone {note : Event → σ → σ} {label : Text} : (alone S C).Notes note note label :=
  .of_eq (fun _ _ h => h.1) (fun _ _ h => h) (fun _ _ h => h) fun _ _ => .rfl

/-- What the coupling of a rule with itself says about one run of it. -/
theorem Rules.of_alone (h : (alone S C).Rules p p) {s : Stream} {c : Value} (hs : S s) (hc : C c)
    {u u' : σ} {r : Result} (hrun : p s c u = (.ok r, u')) : S r.stream ∧ C r.context := by
  have hend := h ⟨rfl, hs⟩ ⟨rfl, hc⟩ u u rfl
  rw [hrun] at hend
  cases hend with
  | returned hr _ =>
    cases hr with
    | ok hs _ hc => exact ⟨hs.2, hc.2⟩
    | err hs _ hc => exact ⟨hs.2, hc.2⟩

end Coupling

end Descent
