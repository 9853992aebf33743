import Descent.Proofs.Locality
import Descent.Proofs.Traces

/-!
# Descent — guarded recursion goes ahead

Named grammars that refer to each other may recurse without end, unless something is consumed on the
way from one entry to the next. Here the guard is a character: a grammar is guarded if it refers to
a name only between brackets whose opening one is a character. Then every entry happens further on
than all entries that it is made from, so that they cannot be nested more deeply than there are
units to read.

The entries are seen in the log, where each named grammar is traced under its own name. Attempts
that come to nothing are seen there as well.

* **`Rules.traced`** — the named grammars with their entries traced.
* **`Ascends`** — a log in which every entry lies ahead of those that are open.
* **`Lookout.Clear`** — how far behind a part may find the entries that are open; with a `gap` of
  one, the last of them may be where the part begins.
* **`Grammar.Guarded.bracketing`** — a guarded grammar may begin where its own entry is, and what
  lies behind its guards begins further on.
* **`Rules.Guarded.ascends`** — the statement for whole parsers, by induction on the budget.
-/

namespace Descent

/-- The named grammars, each traced under its name. -/
def Rules.traced (rules : Rules) : Rules :=
  fun name => (rules name).map (.unary (.traced name))

/-- The grammar refers to names only behind a character. -/
inductive Grammar.Guarded : Grammar → Prop where
  | terminal {t} (h : ∀ l, t.check = .ok l → Palette.untraced.leaf l) : Guarded (.terminal t)
  | unary {op g} (hop : Palette.untraced.unary op) (hg : Guarded g) : Guarded (.unary op g)
  | binary {op g h} (hg : Guarded g) (hh : Guarded h) : Guarded (.binary op g h)
  | between {opening closing inner} (ho : Guarded opening) (hc : Guarded closing)
      (hi : Guarded inner) :
      Guarded (.between opening closing inner)
  | serial {gs} (h : ∀ g ∈ gs, Guarded g) : Guarded (.serial gs)
  | choice {gs} (h : ∀ g ∈ gs, Guarded g) : Guarded (.choice gs)
  /-- Behind the opening character any grammar may stand. -/
  | guard {u closing inner} (hc : closing.Over .untraced) (hi : inner.Over .untraced) :
      Guarded (.between (.char u) closing inner)

/-- All named grammars are guarded. -/
structure Rules.Guarded (rules : Rules) : Prop where
  untraced : rules.Over .untraced
  guarded : ∀ name g, rules name = some g → g.Guarded

/-! ## Entries that lie ahead -/

/-- The attempts lie before the offset, and there are no more of them than units up to there. -/
structure Precede (start : Stream) (offset : Int) (attempts : List Attempt) : Prop where
  before : ∀ a ∈ attempts, a.offset < offset
  length_le : start.offset + attempts.length ≤ offset

theorem Precede.mono {start : Stream} {offset offset' : Int} {attempts : List Attempt}
    (h : Precede start offset attempts) (hle : offset ≤ offset') : Precede start offset' attempts :=
  ⟨fun a ha => Int.lt_of_lt_of_le (h.before a ha) hle, Int.le_trans h.length_le hle⟩

/-- With one more attempt at the offset itself, all lie before the next offset. -/
theorem Precede.cons {start : Stream} {offset : Int} {attempts : List Attempt}
    (h : Precede start offset attempts) (label : Text) :
    Precede start (offset + 1) (⟨label, offset⟩ :: attempts) := by
  constructor
  · intro a ha
    rcases List.mem_cons.mp ha with rfl | ha
    · show offset < offset + 1
      omega
    · have hlt := h.before a ha
      omega
  · have hle := h.length_le
    rw [List.length_cons]
    omega

/-- Whatever is tried lies inside the source and ahead of all that is open at that moment. -/
def Ascends (start : Stream) (events : List Event) : Prop :=
  ∀ past label (offset : Int) ahead, past ++ [.trying label offset ahead] <+: events →
    offset ≤ start.source.size ∧ ∃ attempts, openAfter past = some attempts ∧
      Precede start offset attempts

theorem Ascends.nil (start : Stream) : Ascends start [] := by
  intro past label offset ahead h
  simp at h

/-- A new attempt begins behind all that are still open. -/
theorem Ascends.atStart {start s : Stream} {events : List Event} {attempts : List Attempt}
    (h : Ascends start events) (hopen : openAfter events = some attempts) (hs : start.LeadsTo s)
    (hprecede : Precede start s.offset attempts) (label : Text) :
    Ascends start (events ++ [.atStart label s]) := by
  intro past label' offset ahead hprefix
  rcases List.prefix_concat_iff.mp hprefix with heq | hprefix
  · obtain ⟨rfl, hlast⟩ := List.append_inj' heq rfl
    obtain ⟨rfl, rfl, -⟩ := Event.trying.inj (List.singleton_inj.mp hlast)
    exact ⟨hs.le_size, attempts, hopen, hprecede⟩
  · exact h past label' offset ahead hprefix

/-- The end of an attempt opens none. -/
theorem Ascends.atEnd {start : Stream} {events : List Event} (h : Ascends start events)
    (label : Text) (r : Result) :
    Ascends start (events ++ [.atEnd label r]) := by
  intro past label' offset ahead hprefix
  rcases List.prefix_concat_iff.mp hprefix with heq | hprefix
  · obtain ⟨-, hlast⟩ := List.append_inj' heq rfl
    cases r <;> cases hlast
  · exact h past label' offset ahead hprefix

/-- What is open lies behind where the part begins, or at most `gap` further on. -/
structure Lookout.Clear (start : Stream) (gap : Int) (i : Lookout) : Prop where
  leads : start.LeadsTo i.low
  precede : Precede start (i.low.offset + gap) i.attempts

/-- The attempts around a run precede every stream that it leads to. -/
theorem Lookout.Clear.precede_of_leadsTo {start s : Stream} {i : Lookout} (hi : i.Clear start 0)
    (hs : i.low.LeadsTo s) : Precede start s.offset i.attempts := by
  have hle := hs.start_le
  exact hi.precede.mono (by omega)

/-- Inside a new attempt there is one more to precede what is done there. -/
theorem Lookout.Clear.inside {start s : Stream} {i : Lookout} (hi : i.Clear start 0) (label : Text)
    (hs : i.low.LeadsTo s) : (i.inside label hs).Clear start 1 :=
  ⟨hi.leads.trans hs, (hi.precede_of_leadsTo hs).cons label⟩

/-! ## Behind a guard -/

/-- A character that is found is one step. -/
theorem Leaf.eq_of_run_char {cls : CharClass} {s t : Stream} {c d x : Value}
    (h : (Leaf.char cls).run s c = .ok (.ok t x d)) : t = s.advance 1 := by
  rw [Leaf.run, matchUnit] at h
  obtain ⟨next, -, h⟩ := ok_of_bind h
  cases next with
  | none => cases h
  | some u =>
    simp only at h
    split at h
    · cases h
      rfl
    · cases h

namespace Coupling

variable {J : List Event → Prop} {base : List Event} {quiet : Log} {i : Lookout}

/-- Runs from further on, inside the same attempts. -/
theorem bracketing_widen {t : Stream} {inBounds : t.InBounds} (ht : i.low.LeadsTo t)
    {x y : Except Stop Result × Log}
    (h : (bracketing J base quiet ⟨t, inBounds, i.attempts⟩).Ends
      (bracketing J base quiet ⟨t, inBounds, i.attempts⟩).Results x y) :
    (bracketing J base quiet i).Ends (bracketing J base quiet i).Results x y := by
  cases h with
  | stopped he hstate => exact .stopped he hstate
  | returned hr hstate =>
    obtain ⟨rfl, hu⟩ := bracketing_results.mp hr
    exact .returned (bracketing_results.mpr ⟨rfl, ht.trans hu⟩) hstate

/-- **Behind a guard.** With the opening character consumed, what is open lies behind, so that inner
and closing rule need to be coupled there only. -/
theorem bracketing_guard {start : Stream} (hi : i.Clear start 1) {cls : CharClass}
    {p q p' q' : Rule Log} (hp : ∀ i, i.Clear start 0 → (bracketing J base quiet i).Rules p p')
    (hq : ∀ i, i.Clear start 0 → (bracketing J base quiet i).Rules q q') :
    (bracketing J base quiet i).Rules (Rule.between (Leaf.char cls).toRule q p)
      (Rule.between (Leaf.char cls).toRule q' p') := by
  rintro s _ c _ ⟨rfl, hs⟩ rfl
  have hbounds := hs.inBounds i.inBounds
  unfold Rule.between Leaf.toRule
  cases hrun : (Leaf.char cls).run s c with
  | error f => exact .stop rfl
  | ok r =>
    have hlead : s.LeadsTo r.stream :=
      Leaf.leadsTo_run (l := .char cls) (fun _ => nofun) hbounds hrun
    cases r with
    | err t e d => exact .pure (bracketing_results.mpr ⟨rfl, hs.trans hlead⟩)
    | ok t x d =>
      obtain rfl := Leaf.eq_of_run_char hrun
      have ht : i.low.LeadsTo (s.advance 1) := hs.trans hlead
      let j : Lookout := ⟨s.advance 1, hlead.inBounds hbounds, i.attempts⟩
      -- the character that was consumed makes up for the gap
      have hj : j.Clear start 0 := by
        refine ⟨hi.leads.trans ht, hi.precede.mono ?_⟩
        have hle := hs.start_le
        show i.low.offset + 1 ≤ s.offset + 1 + 0
        omega
      intro log quiet' hstate
      have hrest := Rules.keepLeft (hp j hj) (hq j hj) ⟨rfl, j.inBounds.leadsTo_self⟩ (rfl : d = d)
      exact bracketing_widen ht (hrest log quiet' hstate)

/-- The leaves, and what the unlabelled operations do, keep to the lookout. -/
theorem bracketing_recasts_plain (J : List Event → Prop) (base : List Event) (quiet : Log)
    {ι : Type} (lookout : ι → Lookout) :
    Recasts (fun j => bracketing J base quiet (lookout j)) .untraced .untraced where
  lawful := Recasting.untraced_lawful _
  leaf _ _ hl := bracketing_leaf hl
  unary _ hop budget _ _ hpq j := bracketing_untraced hop.1 hop.2 budget (hpq j)
  fault _ _ _ := rfl
  output _ _ _ h := h.symm

end Coupling

/-- **A guarded grammar.** It may begin where its own entry is: its parts begin there too, or behind
a guard, where every grammar of untraced parts is known to be coupled. -/
theorem Grammar.Guarded.bracketing {J : List Event → Prop} {base : List Event} {quiet : Log}
    {start : Stream} {rules rules' : Rules} {run run' : Parser Factory → Rule Log} {budget : Nat}
    (hplain : ∀ p : Parser Factory, p.Over .untraced → ∀ i, i.Clear start 0 →
      (Coupling.bracketing J base quiet i).Rules (p.toRule (Host.direct rules run) budget)
      ((p.recast .untraced).toRule (Host.direct rules' run') budget))
    {g : Grammar} (hg : g.Guarded) {p : Parser Factory} (hcheck : g.check = .ok p) {i : Lookout}
    (hi : i.Clear start 1) :
    (Coupling.bracketing J base quiet i).Rules (p.toRule (Host.direct rules run) budget)
      ((p.recast .untraced).toRule (Host.direct rules' run') budget) := by
  induction hg generalizing p with
  | terminal hleaf =>
    cases cases_of_check hcheck with
    | terminal hl =>
      intro s t c d hs hc
      exact .lift (Coupling.bracketing_leaf (hleaf _ hl) hs hc)
  | unary hop _ ih =>
    -- no operation of a guarded grammar is a trace, so the gap stays what it is
    cases cases_of_check hcheck with
    | unary hp =>
      rw [Parser.toRule_recast_unary]
      exact Coupling.bracketing_untraced hop.1 hop.2 budget (ih hp)
  | binary _ _ ihg ihh =>
    cases cases_of_check hcheck with
    | binary hp hq => exact Coupling.Rules.binary _ budget (ihg hp) (ihh hq)
  | between _ _ _ iho ihc ihi =>
    cases cases_of_check hcheck with
    | between hp hq hr => exact Coupling.Rules.between (iho hp) (ihc hq) (ihi hr)
  | serial _ ih =>
    cases cases_of_check hcheck with
    | serial hps =>
      refine Coupling.Rules.serial (Coupling.rules_recastAll fun p hp => ?_)
      obtain ⟨g, hg, hp⟩ := hps p hp
      exact ih g hg hp
  | choice _ ih =>
    cases cases_of_check hcheck with
    | @choice _ p ps hps =>
      have hparts : ∀ q ∈ p :: ps, (Coupling.bracketing J base quiet i).Rules
          (q.toRule (Host.direct rules run) budget)
            ((q.recast .untraced).toRule (Host.direct rules' run') budget) := by
        intro q hq
        obtain ⟨g, hg, hq⟩ := hps q hq
        exact ih g hg hq
      exact Coupling.Rules.choice (hparts p List.mem_cons_self)
        (Coupling.rules_recastAll fun q hq => hparts q (List.mem_cons_of_mem p hq))
  | guard hc hi' =>
    -- the character closes the gap, so behind it every grammar will do
    cases cases_of_check hcheck with
    | between ho hq hr =>
      cases ho
      exact Coupling.bracketing_guard hi (hplain _ (hi'.check hr)) (hplain _ (hc.check hq))

/-! ## Whole parsers -/

section

variable {base : List Event} {quiet : Log} {start : Stream} {rules : Rules}

/-- The entry of a name: one more attempt, ahead of those that are open, and inside it a guarded
grammar. -/
theorem Rules.Guarded.bracketing_entry (hrules : rules.Guarded) {budget : Nat}
    (hplain : ∀ p : Parser Factory, p.Over .untraced → ∀ i, i.Clear start 0 →
      (Coupling.bracketing (Ascends start) base quiet i).Rules (p.direct rules.traced budget)
      ((p.recast .untraced).direct (rules.recast .untraced) budget))
    (name : Text) {i : Lookout} (hi : i.Clear start 0) :
    (Coupling.bracketing (Ascends start) base quiet i).Rules
      ((Host.direct rules.traced (Parser.direct rules.traced budget)).enter (.named name))
      ((Host.direct (rules.recast .untraced) (Parser.direct (rules.recast .untraced) budget)).enter
        (.named name)) := by
  intro s t c d hs hc
  simp only [Host.direct, Factory.produce, Rules.traced, Rules.recast]
  cases hname : rules name with
  | none => exact .stop rfl
  | some g =>
    show (Coupling.bracketing (Ascends start) base quiet i).Runs _
      (Run.lift (Grammar.unary (.traced name) g).check >>=
        fun p => p.direct rules.traced budget s c)
      (Run.lift (g.recast .untraced).check >>=
        fun p => p.direct (rules.recast .untraced) budget t d)
    -- both sides build the same grammar, once with its traces and once without
    rw [(hrules.untraced.keeps name g hname).check_recast (Recasting.untraced_lawful _),
      Grammar.check]
    cases hp : g.check with
    | error f => exact .stop rfl
    | ok p =>
      show (Coupling.bracketing (Ascends start) base quiet i).Runs _
        ((Parser.unary (.traced name) p).direct rules.traced budget s c)
        ((p.recast .untraced).direct (rules.recast .untraced) budget t d)
      cases budget with
      | zero => exact .stop rfl
      | succ budget =>
        refine Coupling.bracketing_traced ?_ (fun r seen hseen => hseen.atEnd name r) ?_ hs hc
        · intro s seen hs hseen hopen
          exact hseen.atStart hopen (hi.leads.trans hs) (hi.precede_of_leadsTo hs) name
        · -- the grammar begins where it was entered, and so needs its guards
          intro s hs
          exact (hrules.guarded name g hname).bracketing hplain hp (hi.inside name hs)

/-- Untraced parts beside themselves, where all that is open lies behind. -/
theorem Rules.Guarded.bracketing_direct (hrules : rules.Guarded) (base : List Event) (quiet : Log)
    (budget : Nat) {p : Parser Factory} (hp : p.Over .untraced) {i : Lookout}
    (hi : i.Clear start 0) :
    (Coupling.bracketing (Ascends start) base quiet i).Rules (p.direct rules.traced budget)
      ((p.recast .untraced).direct (rules.recast .untraced) budget) := by
  induction budget generalizing p i with
  | zero =>
    intro s t c d _ _
    exact .stop rfl
  | succ budget ih =>
    -- the family is that of all places from which a name may be entered
    have hrecasts := Coupling.bracketing_recasts_plain (Ascends start) base quiet
      (Subtype.val : { i : Lookout // i.Clear start 0 } → Lookout)
    refine hrecasts.toRule ?_ ?_ budget hp ⟨i, hi⟩
    · exact fun q hq j => ih hq j.2
    · exact fun name j => hrules.bracketing_entry (fun q hq i hi => ih hq hi) name j.2

end

/-- **Guarded recursion goes ahead.** Let all named grammars be guarded, and let the entries of
names be traced. Whatever the budget, the run ends as it does without the traces. Every entry, also
in an attempt that is dropped and in a run that is stopped, lies ahead of all entries that are open
at that moment, and of these there are no more than units between the start and the entry. -/
theorem Rules.Guarded.ascends {rules : Rules} (hrules : rules.Guarded) {p : Parser Factory}
    (hp : p.Over .untraced) {s : Stream} (hs : s.InBounds) (c : Value) (budget : Nat)
    (log quiet : Log) :
    (p.recast .untraced).direct (rules.recast .untraced) budget s c quiet
        = ((p.direct rules.traced budget s c log).1, quiet) ∧
      ∃ events, (p.direct rules.traced budget s c log).2.toList = log.toList ++ events ∧
        Ascends s events := by
  have hclear : Lookout.Clear s 0 ⟨s, hs, []⟩ := ⟨hs.leadsTo_self, ⟨nofun, Int.le_refl _⟩⟩
  have hend := hrules.bracketing_direct log.toList quiet budget hp hclear
    ⟨rfl, hs.leadsTo_self⟩ (rfl : c = c) log quiet ⟨rfl, [], (List.append_nil _).symm, .nil s, rfl⟩
  obtain ⟨hsame, events, hlog, hascends, -⟩ := Coupling.bracketing_end hend
  exact ⟨hsame, events, hlog, hascends⟩

end Descent
