import Descent.Proofs.Leaves
import Descent.Proofs.Positions
import Descent.Proofs.Watch

/-!
# Descent — position tracking under backtracking

The tracker travels in the context, and attempts that came to nothing may have moved it: `optional`
keeps the context of a failed attempt, choices and repetitions drop it. Wherever the tracker stands,
a parser asks for positions at streams between the origin and the end, and there its answers are the
right ones.

* **`Chronicle`** — the log of a watched run: positions asked for, each answered by the count from
  the origin, and spans, each between the positions where its part began and ended.
* **`Coupling.watching`** — a run beside the watched run: equal results, an accurate tracker in the
  context, and a log that goes on as a chronicle.
* **`Grammar.Over.chronicle`** — the statement for parsers under `tracked`.
-/

namespace Descent

/-- All library parts but `tracked`, which would start a tracker of its own. -/
def Palette.untracked : Palette where
  leaf l := ∀ run, l ≠ .custom run
  unary op := (∀ hook, op ≠ .hooked hook) ∧ op ≠ .tracked
  fault _ := True

/-! ## Chronicles -/

/-- The events of asking for the position of `s`, which is answered by the count from the origin. -/
def positionEvents (origin s : Stream) : List Event :=
  [.atStart positionLabel s, .matched positionLabel (.position (origin.positionFrom s)) s.offset]

/-- A log in which every position is counted from the origin. -/
inductive Chronicle (origin : Stream) : List Event → Prop where
  | nil : Chronicle origin []
  /-- A position is asked for at `s`. -/
  | position {before : List Event} {s : Stream} (hbefore : Chronicle origin before)
      (hs : origin.LeadsTo s) :
      Chronicle origin (before ++ positionEvents origin s)
  /-- The parts of a span are found at `s`: what is spanned begins there and ends at `t`, and the
  span of the parts starts at the position of `s` and ends by as much further on as was consumed. -/
  | span {before inner : List Event} {s t : Stream} {parts x : Value}
      (hbefore : Chronicle origin before)
      (hinner : Chronicle origin inner) (hs : origin.LeadsTo s) (ht : s.LeadsTo t)
      (hspan : Rule.toSpan parts
        = .span x (origin.positionFrom s) ((origin.positionFrom s).advance (t.consumedSince s))) :
      Chronicle origin (before ++ (.atStart spanLabel s :: (positionEvents origin s ++ inner ++
        positionEvents origin t ++ [.matched spanLabel parts t.offset])))
  /-- A span is tried at `s`, but what is to be spanned fails. -/
  | broken {before inner : List Event} {s : Stream} (e : Value) (offset : Int)
      (hbefore : Chronicle origin before)
      (hinner : Chronicle origin inner) (hs : origin.LeadsTo s) :
      Chronicle origin (before ++ (.atStart spanLabel s :: (positionEvents origin s ++ inner ++
        [.failed spanLabel e offset])))

/-! ## Trackers in contexts -/

/-- What was put under a key is found there. -/
theorem Table.get?_insert_self {key : Value} (hkey : key.same key = true) (v : Value)
    (entries : Table.Entries) :
    Table.get? key (Table.insert key v entries) = some v := by
  induction entries with
  | nil => rw [Table.insert, Table.get?, if_pos hkey]
  | cons entry entries ih =>
    obtain ⟨k, w⟩ := entry
    rw [Table.insert]
    -- the key is in the first entry, or it is put in behind it and the search goes past that entry
    split
    · next hk => rw [Table.get?, if_pos hk]
    · next hk => rw [Table.get?, if_neg hk, ih]

theorem Value.same_trackerKey : Value.trackerKey.same .trackerKey = true := by
  rw [Value.same, Value.equal, Bool.or_true]

theorem Rule.trackerOf?_withTracker (t : Tracker) (entries : Table.Entries) :
    trackerOf? (withTracker t (.table entries)) = .ok (some t) := by
  rw [trackerOf?, withTracker, Value.get?, Table.get?_insert_self Value.same_trackerKey]

/-- The context is a table with an accurate tracker. -/
structure Tracks (origin : Stream) (c : Value) : Prop where
  table : ∃ entries, c = .table entries
  tracker : ∃ t, Rule.trackerOf? c = .ok (some t) ∧ t.Accurate origin

theorem Tracks.withTracker {origin : Stream} {t : Tracker} (ht : t.Accurate origin)
    (entries : Table.Entries) :
    Tracks origin (Rule.withTracker t (.table entries)) :=
  ⟨⟨_, rfl⟩, t, Rule.trackerOf?_withTracker t entries, ht⟩

/-- The position leaf in a context with an accurate tracker. -/
theorem Tracks.position_eq {origin s : Stream} {c : Value} (horigin : origin.InBounds)
    (hc : Tracks origin c) (hs : origin.LeadsTo s) :
    ∃ d, Rule.position s c = .ok (.ok s (.position (origin.positionFrom s)) d) ∧
      Tracks origin d := by
  obtain ⟨⟨entries, rfl⟩, t, htracker, ht⟩ := hc
  refine ⟨Rule.withTracker (t.moveTo s) (.table entries), ?_,
    .withTracker (ht.moveTo horigin hs) entries⟩
  rw [Leaf.position_of_tracker htracker, ht.locate_eq horigin hs]

/-! ## A run beside the watched run -/

/-- A run beside the watched run, from `low` on: the watched log is `base` and a chronicle behind
it. Where the runs are stopped the chronicle may be cut short. -/
def Coupling.watching (origin low : Stream) (base : List Event) : Coupling Log Log where
  stream s t := s = t ∧ low.LeadsTo s
  context c d := c = d ∧ Tracks origin c
  output := Eq
  error := Eq
  state _ log := ∃ seen, log.toList = base ++ seen ∧ Chronicle origin seen
  halted _ log := ∃ seen rest, log.toList = base ++ seen ∧ Chronicle origin (seen ++ rest)
  stop := Eq
  halt := by
    rintro _ _ ⟨seen, hlog, hseen⟩
    exact ⟨seen, [], hlog, by rwa [List.append_nil]⟩
  exhausted := rfl
  null := rfl
  tuple := @tuple_eq
  list := @list_eq
  shortfall := @shortfall_eq

/-- The log with an event behind it. -/
def note (event : Event) (log : Log) : Log :=
  log.push event

/-- A traced rule runs on the log with its first event, and its end is the last event of what it
leaves. -/
theorem traced_apply (label : Text) (p : Rule Log) (s : Stream) (c : Value) (log : Log) :
    Rule.traced note label p s c log = match p s c (note (.atStart label s) log) with
      | (.ok r, log') => (.ok r, note (.atEnd label r) log')
      | (.error e, log') => (.error e, log') := by
  unfold Rule.traced
  simp only [Run.update, Run.bind_apply]
  cases p s c (note (.atStart label s) log) with
  | mk a log' =>
    cases a with
    | error e => rfl
    | ok r => rfl

/-- One step of a sequence. -/
theorem serialOnto_apply (xs : List Value) (p : Rule Log) (ps : List (Rule Log)) (s : Stream)
    (c : Value) (log : Log) :
    Rule.serialOnto xs (p :: ps) s c log = match p s c log with
      | (.ok (.ok t x d), log') => Rule.serialOnto (x :: xs) ps t d log'
      | (.ok (.err t e d), log') => (.ok (.err t e d), log')
      | (.error e, log') => (.error e, log') := by
  conv_lhs => unfold Rule.serialOnto
  rw [Run.bind_apply]
  cases p s c log with
  | mk a log' =>
    cases a with
    | error e => rfl
    | ok r =>
      cases r with
      | ok t x d => rfl
      | err t e d => rfl

section

variable {origin low s : Stream} {base : List Event} {c : Value}

/-- The position leaf, and what its trace adds to a log. -/
theorem Tracks.run_position (horigin : origin.InBounds) (hc : Tracks origin c)
    (hs : origin.LeadsTo s) :
    ∃ d, Tracks origin d ∧
      (∀ log, (Leaf.toRule .position : Rule Log) s c log
        = (.ok (.ok s (.position (origin.positionFrom s)) d), log)) ∧
      ∀ log, ∃ log', Rule.traced note positionLabel (Leaf.toRule .position) s c log
        = (.ok (.ok s (.position (origin.positionFrom s)) d), log') ∧
        log'.toList = log.toList ++ positionEvents origin s := by
  obtain ⟨d, hposition, hd⟩ := hc.position_eq horigin hs
  have hleaf (log : Log) : (Leaf.toRule .position : Rule Log) s c log
      = (.ok (.ok s (.position (origin.positionFrom s)) d), log) := by
    rw [Leaf.toRule, Leaf.run, hposition]
    rfl
  refine ⟨d, hd, hleaf, fun log => ?_⟩
  refine ⟨(log.push (.atStart positionLabel s)).push
    (.matched positionLabel (.position (origin.positionFrom s)) s.offset), ?_, ?_⟩
  · unfold Rule.traced
    simp only [Run.update, Run.bind_apply, hleaf]
    rfl
  · rw [Array.toList_push, Array.toList_push, List.append_assoc]
    rfl

theorem watching_position (horigin : origin.InBounds) (hlow : origin.LeadsTo low) :
    (Coupling.watching origin low base).Rules (Leaf.toRule .position)
      (Rule.traced note positionLabel (Leaf.toRule .position)) := by
  rintro s _ c _ ⟨rfl, hs⟩ ⟨rfl, hc⟩ u log ⟨seen, hlog, hseen⟩
  obtain ⟨d, hd, hleaf, htraced⟩ := hc.run_position horigin (hlow.trans hs)
  obtain ⟨log', hrun, hlog'⟩ := htraced log
  rw [hleaf, hrun]
  refine .returned (.ok ⟨rfl, hs⟩ rfl ⟨rfl, hd⟩)
    ⟨seen ++ positionEvents origin s, ?_, hseen.position (hlow.trans hs)⟩
  rw [hlog', hlog, List.append_assoc]

/-- A trace that is taken out was only seen in the log. -/
theorem watching_untraced {p q : Rule Log} (hp : (Coupling.watching origin low base).Rules p q)
    (label : Text) :
    (Coupling.watching origin low base).Rules (Rule.traced note label p) q := by
  intro s t c d hs hc u log hlog
  have hend := hp hs hc (note (.atStart label s) u) log hlog
  rw [traced_apply]
  cases hleft : p s c (note (.atStart label s) u) with
  | mk a u' =>
    cases hright : q t d log with
    | mk b log' =>
      rw [hleft, hright] at hend
      cases hend with
      | returned hr hs => exact .returned hr hs
      | stopped he hs => exact .stopped he hs

/-- **A span.** Its two positions are those of the streams at which its part began and ended. The
watched log up to the part is a base of its own, behind which the part's own chronicle stands. -/
theorem watching_span {p q : Rule Log} (horigin : origin.InBounds) (hlow : origin.LeadsTo low)
    (hpq : ∀ s base, origin.LeadsTo s → (Coupling.watching origin s base).Rules p q) :
    (Coupling.watching origin low base).Rules
      (Rule.serial [Leaf.toRule .position, p, Leaf.toRule .position])
      (Rule.traced note spanLabel
        (Rule.serial [Rule.traced note positionLabel (Leaf.toRule .position), q,
        Rule.traced note positionLabel (Leaf.toRule .position)])) := by
  rintro s _ c _ ⟨rfl, hs⟩ ⟨rfl, hc⟩ u log ⟨seen, hlog, hseen⟩
  have hs' := hlow.trans hs
  have hself : s.LeadsTo s := (hs'.inBounds horigin).leadsTo_self
  obtain ⟨d, hd, hleaf, htraced⟩ := hc.run_position horigin hs'
  obtain ⟨log₁, hrun₁, hlog₁⟩ := htraced (note (.atStart spanLabel s) log)
  rw [note, Array.toList_push] at hlog₁
  -- the part runs from `s` on, and its log starts where the first position has been logged
  have hend :=
    hpq s log₁.toList hs' ⟨rfl, hself⟩ ⟨rfl, hd⟩ u log₁ ⟨[], (List.append_nil _).symm, .nil⟩
  rw [traced_apply, Rule.serial, Rule.serial, serialOnto_apply, serialOnto_apply, hleaf, hrun₁]
  simp only
  rw [serialOnto_apply, serialOnto_apply]
  cases hleft : p s d u with
  | mk a u' =>
    cases hright : q s d log₁ with
    | mk b log₂ =>
      rw [hleft, hright] at hend
      cases hend with
      | stopped he hstate =>
        -- the log ends inside the span; a failure of the span would make a chronicle of it
        obtain ⟨inner, rest, hlog₂, hinner⟩ := hstate
        refine .stopped he ⟨seen ++ (.atStart spanLabel s :: (positionEvents origin s ++ inner)),
          rest ++ [.failed spanLabel .null 0], ?_, ?_⟩
        · rw [hlog₂, hlog₁, hlog]
          simp only [List.append_assoc, List.cons_append, List.nil_append]
        · have hbroken := Chronicle.broken .null 0 hseen hinner hs'
          simpa only [List.append_assoc, List.cons_append] using hbroken
      | returned hr hstate =>
        obtain ⟨inner, hlog₂, hinner⟩ := hstate
        cases hr with
        | @err t _ e _ d' _ ht he hd' =>
          -- the second position is never asked for
          obtain ⟨rfl, ht⟩ := ht
          obtain ⟨rfl, hd'⟩ := hd'
          obtain rfl := he
          refine .returned (.err ⟨rfl, hs.trans ht⟩ rfl ⟨rfl, hd'⟩)
            ⟨_, ?_, .broken e t.offset hseen hinner hs'⟩
          rw [note, Array.toList_push, hlog₂, hlog₁, hlog, Event.atEnd]
          simp only [List.append_assoc, List.cons_append, List.nil_append]
        | @ok t _ x _ d' _ ht hx hd' =>
          obtain ⟨rfl, ht⟩ := ht
          obtain ⟨rfl, hd'⟩ := hd'
          obtain rfl := hx
          -- the second position is asked for where the part ended, in the context that the part
          -- handed on
          have ht' := hs'.trans ht
          obtain ⟨d'', hd'', hleaf', htraced'⟩ := hd'.run_position horigin ht'
          obtain ⟨log₃, hrun₃, hlog₃⟩ := htraced' log₂
          simp only
          rw [serialOnto_apply, serialOnto_apply, hleaf', hrun₃, hs'.positionFrom_eq horigin ht]
          have hspan : Rule.toSpan (.tuple [.position (origin.positionFrom s), x,
              .position ((origin.positionFrom s).advance (t.consumedSince s))])
              = .span x (origin.positionFrom s)
                ((origin.positionFrom s).advance (t.consumedSince s)) :=
            rfl
          refine .returned (.ok ⟨rfl, hs.trans ht⟩ rfl ⟨rfl, hd''⟩)
            ⟨_, ?_, hseen.span hinner hs' ht hspan⟩
          simp only [note, Array.toList_push, hlog₃, hlog₂, hlog₁, hlog, Event.atEnd,
            List.append_assoc, List.cons_append, List.nil_append]
          rfl

/-- A leaf that does not ask for the position. -/
theorem watching_leaf (horigin : origin.InBounds) (hlow : origin.LeadsTo low) {l : Leaf}
    (hcustom : ∀ run, l ≠ .custom run) (hposition : l ≠ .position) :
    (Coupling.watching origin low base).Leaves l l := by
  rintro s _ c _ ⟨rfl, hs⟩ ⟨rfl, hc⟩
  refine .refl (fun r hr => ?_) fun _ _ => rfl
  -- such a leaf hands on its context as it is, so the tracker in it stays accurate
  have hsteps := Leaf.steps_run hcustom hposition ((hlow.trans hs).inBounds horigin) hr
  cases hsteps with
  | stay => exact .err ⟨rfl, hs⟩ rfl ⟨rfl, hc⟩
  | move ht => exact .ok ⟨rfl, hs.trans ht⟩ rfl ⟨rfl, hc⟩

/-- The operations that neither trace nor track. -/
theorem watching_allows (horigin : origin.InBounds) (hlow : origin.LeadsTo low) {op : Unary}
    (hop : Palette.untracked.unary op) (htraced : ∀ label, op ≠ .traced label) :
    (Coupling.watching origin low base).Allows note note op := by
  refine Coupling.allows_of_eq (fun _ _ => .rfl) (fun _ _ => .rfl) (fun _ => rfl) hop.1 ?_
    (fun h => absurd h hop.2)
    fun label h => absurd h (htraced label)
  rintro s _ ⟨rfl, hs⟩
  refine .refl (fun t ht => ?_) fun _ _ => rfl
  exact ⟨rfl, hs.trans (((hlow.trans hs).inBounds horigin).leadsTo_skipBlanks ht)⟩

/-- A grammar that is built during the parse, and the watched one. -/
theorem watching_build {run run' : Parser Factory → Rule Log} (hlow : origin.LeadsTo low)
    (hrun : ∀ p, p.Over .untracked → ∀ low base, origin.LeadsTo low →
      (Coupling.watching origin low base).Rules (run p) (run' p.watched))
    {g : Grammar} (hg : g.Over .untracked) :
    (Coupling.watching origin low base).Rules (fun s c => do let p ← Run.lift g.check; run p s c)
      (fun s c => do let p ← Run.lift g.watched.check; run' p s c) := by
  intro s t c d hs hc
  rw [Grammar.check_watched]
  cases hcheck : g.check with
  | error f => exact .stop rfl
  | ok p => exact hrun p (hg.check hcheck) low base hlow hs hc

/-- One tree beside the watched tree. -/
theorem watching_toRule (horigin : origin.InBounds) {rules : Rules} (hrules : rules.Over .untracked)
    {run run' : Parser Factory → Rule Log}
    (hrun : ∀ p, p.Over .untracked → ∀ low base, origin.LeadsTo low →
      (Coupling.watching origin low base).Rules (run p) (run' p.watched))
    (budget : Nat) {p : Parser Factory} (hp : p.Over .untracked) :
    ∀ low base, origin.LeadsTo low → (Coupling.watching origin low base).Rules
      (p.toRule (Host.direct rules run) budget)
        (p.watched.toRule (Host.direct rules.watched run') budget) := by
  have hall {ps : List (Parser Factory)} {low : Stream} {base : List Event}
      (h : ∀ p ∈ ps,
        (Coupling.watching origin low base).Rules (p.toRule (Host.direct rules run) budget)
        (p.watched.toRule (Host.direct rules.watched run') budget)) :
      List.Forall₂ (Coupling.watching origin low base).Rules (Parser.toRules
        (Host.direct rules run) budget ps)
        (Parser.toRules (Host.direct rules.watched run') budget (Parser.watchedAll ps)) := by
    induction ps with
    | nil => exact .nil
    | cons p ps ih =>
      exact .cons (h p List.mem_cons_self) (ih fun q hq => h q (List.mem_cons_of_mem p hq))
  induction hp with
  | @leaf l hl =>
    intro low base hlow
    by_cases hposition : l = .position
    · rw [hposition]
      exact watching_position horigin hlow
    · have hnot : ¬ l.isPosition = true := fun h => hposition (Leaf.eq_of_isPosition h)
      rw [Parser.watched, if_neg hnot]
      intro s t c d hs hc
      exact .lift (watching_leaf horigin hlow hl hposition hs hc)
  | @unary op p hop _ ih =>
    intro low base hlow
    cases op with
    | traced label =>
      -- the one operation that the watched tree lacks
      exact watching_untraced (ih low base hlow) label
    | _ => exact Coupling.Rules.unary (watching_allows horigin hlow hop fun _ h => by
        cases h) budget (ih low base hlow)
  | binary _ _ ihp ihq =>
    intro low base hlow
    exact Coupling.Rules.binary _ budget (ihp low base hlow) (ihq low base hlow)
  | between _ _ _ iho ihc ihi =>
    intro low base hlow
    exact Coupling.Rules.between (iho low base hlow) (ihc low base hlow) (ihi low base hlow)
  | @serial ps _ ih =>
    intro low base hlow
    rw [Parser.watched]
    split
    · next hspan =>
      -- the part of a span is watched from where it begins, so its hypothesis is needed at every
      -- `low` and `base`
      obtain ⟨q, rfl⟩ := Parser.eq_of_areSpan hspan
      exact watching_span horigin hlow (ih q (List.mem_cons_of_mem _ List.mem_cons_self))
    · exact Coupling.Rules.serial (hall fun q hq => ih q hq low base hlow)
  | choice _ _ ihp ih =>
    intro low base hlow
    exact Coupling.Rules.choice (ihp low base hlow) (hall fun q hq => ih q hq low base hlow)
  | @bind p f _ hover _ _ ih =>
    intro low base hlow
    refine Coupling.Rules.bind (ih low base hlow) ?_
    rintro x _ rfl s t c d hs hc
    cases hx : f x with
    | error e =>
      simp only [hx, Grammar.watchedResult]
      exact .stop rfl
    | ok g =>
      simp only [hx, Grammar.watchedResult]
      exact watching_build hlow hrun (hover x g hx) hs hc
  | grammar hg _ =>
    intro low base hlow
    exact watching_build hlow hrun hg
  | @named name =>
    intro low base hlow s t c d hs hc
    rw [Parser.watched, Parser.toRule, Parser.toRule, Factory.watched]
    simp only [Host.direct, Factory.produce, Rules.watched]
    cases hname : rules name with
    | none => exact .stop rfl
    | some g => exact watching_build hlow hrun (hrules.keeps name g hname) hs hc

/-- Every direct run of a parser beside that of the watched parser. -/
theorem watching_direct (horigin : origin.InBounds) {rules : Rules} (hrules : rules.Over .untracked)
    (budget : Nat) {p : Parser Factory} (hp : p.Over .untracked) :
    ∀ low base, origin.LeadsTo low →
      (Coupling.watching origin low base).Rules (p.direct rules budget)
      (p.watched.direct rules.watched budget) := by
  induction budget generalizing p with
  | zero =>
    intro low base _ s t c d _ _
    exact .stop rfl
  | succ budget ih => exact watching_toRule horigin hrules (fun q hq => ih hq) budget hp

/-- What the two ends of a run and its watched run, started on an empty log, have to do with each
other. -/
theorem watching_end {x y : Except Stop Result × Log}
    (h : (Coupling.watching origin low []).Ends (Coupling.watching origin low []).Results x y) :
    y.1 = x.1 ∧ ∃ rest, Chronicle origin (y.2.toList ++ rest) ∧ ∀ r, x.1 = .ok r → rest = [] := by
  cases h with
  | stopped he hstate =>
    obtain ⟨seen, rest, hlog, hseen⟩ := hstate
    obtain rfl := he
    refine ⟨rfl, rest, ?_, fun r hr => nomatch hr⟩
    rw [hlog]
    exact hseen
  | returned hr hstate =>
    obtain ⟨seen, hlog, hseen⟩ := hstate
    refine ⟨?_, [], ?_, fun _ _ => rfl⟩
    · cases hr with
      | ok hs hx hc => rw [hs.1, show _ = _ from hx, hc.1]
      | err hs he hc => rw [hs.1, show _ = _ from he, hc.1]
    · rw [List.append_nil, hlog]
      exact hseen

end

/-! ## Parsers under a tracker -/

/-- **Positions are right under any backtracking.** Of a grammar without trackers of its own, run
under a tracker in any table, the watched run has the same result, and its log is a chronicle: every
position that is asked for, at whatever stream, is the count from the origin up to there, and every
span lies between the positions where its part began and where it ended. A run that is stopped
leaves a chronicle cut short. -/
theorem Grammar.Over.chronicle {rules : Rules} (hrules : rules.Over .untracked) {g : Grammar}
    (hg : g.Over .untracked) {p : Parser Factory} (hp : (Grammar.unary .tracked g).check = .ok p)
    {origin : Stream} (horigin : origin.InBounds) (entries : Table.Entries) (budget : Nat)
    (log : Log) :
    ∃ q, (Grammar.unary .tracked g).watched.check = .ok q ∧
      (q.direct rules.watched budget origin (.table entries) #[]).1
        = (p.direct rules budget origin (.table entries) log).1 ∧
      ∃ rest, Chronicle origin
        ((q.direct rules.watched budget origin (.table entries) #[]).2.toList ++ rest) ∧
        ∀ r, (p.direct rules budget origin (.table entries) log).1 = .ok r → rest = [] := by
  obtain ⟨part, hpart, h⟩ := ok_of_bind hp
  cases h
  refine ⟨.unary .tracked part.watched, ?_, ?_⟩
  · rw [check_watched, hp]
    rfl
  cases budget with
  | zero => exact ⟨rfl, [], .nil, fun _ _ => rfl⟩
  | succ budget =>
    -- the tracker of the outermost operation is the one in the context, and it is accurate from the
    -- start
    have hlow := horigin.leadsTo_self
    have hstart : Tracks origin (Rule.withTracker (.start origin) (.table entries)) :=
      .withTracker (.start horigin) entries
    have hend := watching_toRule horigin hrules
      (fun q hq => watching_direct horigin hrules budget hq) budget (hg.check hpart) origin [] hlow
      ⟨rfl, hlow⟩ ⟨rfl, hstart⟩ log #[] ⟨[], rfl, .nil⟩
    exact watching_end hend

/-- A failed attempt leaves its tracker one character ahead, and a span follows. Of the four
positions that are logged, the first is asked for in the attempt, the second behind it and back at
the origin, and the last two are the ends of the span. -/
theorem chronicle_after_attempt :
    let attempt : Grammar := .serial [.char 'a', .leaf .position, .char 'x']
    let g : Grammar :=
      .unary .tracked (.serial [.optional attempt, .leaf .position, .spanned (.char 'a')])
    let origin : Stream := ⟨⟨0, .text, #[97, 98]⟩, 0⟩
    let ahead : Stream := ⟨⟨0, .text, #[97, 98]⟩, 1⟩
    let parts : Value := .tuple [.position ⟨0, 1, 0⟩, .text [97], .position ⟨1, 1, 1⟩]
    ∃ p q, g.check = .ok p ∧ g.watched.check = .ok q ∧
      let run := p.direct (fun _ => none) 4 origin .emptyTable #[]
      let watched := q.direct (Rules.watched fun _ => none) 4 origin .emptyTable #[]
      watched.2.toList = positionEvents origin ahead ++ positionEvents origin origin ++
        (.atStart spanLabel origin ::
          (positionEvents origin origin ++ positionEvents origin ahead ++
          [.matched spanLabel parts 1])) ∧
      (∃ r, run.1 = .ok r) ∧ watched.1 = run.1 ∧
      ∃ rest, Chronicle origin (watched.2.toList ++ rest) ∧ ∀ r, run.1 = .ok r → rest = [] := by
  have hchar (c : Char) : (Grammar.char c).Over .untracked := by
    refine .terminal fun l hl => ?_
    cases hl
    exact fun _ => nofun
  have hposition : (Grammar.leaf .position).Over .untracked := by
    refine .terminal fun l hl => ?_
    cases hl
    exact fun _ => nofun
  -- the grammar is one without scopes, part by part
  have hserial {g₁ g₂ g₃ : Grammar} (h₁ : g₁.Over .untracked) (h₂ : g₂.Over .untracked)
      (h₃ : g₃.Over .untracked) :
      (Grammar.serial [g₁, g₂, g₃]).Over .untracked := by
    refine .serial fun g hg => ?_
    rcases List.mem_cons.mp hg with rfl | hg
    · exact h₁
    · rcases List.mem_cons.mp hg with rfl | hg
      · exact h₂
      · rw [List.mem_singleton.mp hg]
        exact h₃
  have hoptional :
      (Grammar.optional (.serial [.char 'a', .leaf .position, .char 'x'])).Over .untracked :=
    .unary ⟨fun _ => nofun, nofun⟩ (hserial (hchar 'a') hposition (hchar 'x'))
  have hspanned : (Grammar.spanned (.char 'a')).Over .untracked :=
    .unary ⟨fun _ => nofun, nofun⟩ (hserial hposition (hchar 'a') hposition)
  have hg := hserial hoptional hposition hspanned
  have hrules : Rules.Over .untracked fun _ => none :=
    ⟨fun _ _ => nofun, fun _ _ => nofun, fun _ _ => trivial⟩
  have horigin : Stream.InBounds ⟨⟨0, .text, #[97, 98]⟩, 0⟩ := ⟨by decide, by decide⟩
  obtain ⟨q, hq, h⟩ := hg.chronicle hrules rfl horigin [] 4 #[]
  obtain rfl := Except.ok.inj hq
  exact ⟨_, _, rfl, rfl, rfl, ⟨_, rfl⟩, h⟩

end Descent
