import Descent.Proofs.Tracking
import Descent.Proofs.Views

/-!
# Descent — a tracker outlives its scope

The tracker that `tracked` starts is an entry of the context, and what a rule hands back as its
context is what the next rule gets. So the end of a tracked rule is not the end of its tracker: a
position that is asked for behind it, on success and on failure, is still answered, and it is
counted from the start of the scope that has been left. Inside an outer scope this hides the outer
tracker.

* **`Coupling.alone_grants`** — an invariant on streams and contexts that the leaves, the skipping
  of blanks and the tracking keep is kept by every run.
* **`Grammar.Over.position_behind_tracked`** — the answer to every position behind a tracked parser.
* **`position_not_scoped`** — two runs in which the scope makes no difference where it should.
-/

namespace Descent

namespace Coupling

variable {S : Stream → Prop} {C : Value → Prop} {P : Palette}

/-- What is left to ask of an invariant of single runs: the contexts are changed by the position
leaf and by the tracking alone. -/
theorem alone_grants (hcustom : ∀ l, P.leaf l → ∀ run, l ≠ .custom run)
    (hhooked : ∀ op, P.unary op → ∀ hook, op ≠ .hooked hook)
    (hrun : ∀ l, P.leaf l → ∀ s c r, S s → l.run s c = .ok r → S r.stream)
    (hskip : ∀ s t, S s → s.skipBlanks = .ok t → S t)
    (hposition : ∀ s c r, S s → C c → Rule.position s c = .ok r → C r.context)
    (htracked : P.unary .tracked → ∀ s c d, S s → C c → trackedContext s c = .ok d → C d) :
    (alone S C : Coupling Log Log).Grants P where
  leaf l hl := by
    rintro s _ c _ ⟨rfl, hs⟩ ⟨rfl, hc⟩
    -- the position is the one leaf that changes the context
    by_cases hl' : l = .position
    · subst hl'
      refine .refl (fun r hr => .alone ?_ (hposition s c r hs hc hr)) fun _ _ => rfl
      rw [Leaf.stream_position hr]
      exact hs
    · refine (Leaf.alike_run (hcustom l hl) hl' (.refl s) c c).excepts (fun _ => rfl) (fun _ => rfl)
        (fun _ => rfl) ⟨rfl, hs⟩ ⟨rfl, hc⟩ fun n x hx => ⟨rfl, ?_⟩
      exact hrun l hl s c _ hs hx
  unary op hop := by
    refine allows_of_eq (fun _ _ => .rfl) (fun _ _ => .rfl) (fun _ => rfl) (hhooked op hop) ?_ ?_
      fun _ _ => .alone
    · rintro s _ ⟨rfl, hs⟩
      exact .refl (fun t ht => ⟨rfl, hskip s t hs ht⟩) fun _ _ => rfl
    · rintro rfl s _ c _ ⟨rfl, hs⟩ ⟨rfl, hc⟩
      exact .refl (fun d hd => ⟨rfl, htracked hop s c d hs hc hd⟩) fun _ _ => rfl
  fault _ _ := rfl
  output _ _ h := h

end Coupling

/-! ## Contexts with a tracker -/

/-- The context is a table with some tracker. -/
structure HoldsTracker (c : Value) : Prop where
  table : ∃ entries, c = .table entries
  tracker : ∃ t, Rule.trackerOf? c = .ok (some t)

/-- To put a tracker into a context is to make it hold one. -/
theorem HoldsTracker.withTracker (t : Tracker) (entries : Table.Entries) :
    HoldsTracker (Rule.withTracker t (.table entries)) :=
  ⟨⟨_, rfl⟩, t, Rule.trackerOf?_withTracker t entries⟩

/-- With a tracker there is a position, and the moved tracker is put back. -/
theorem HoldsTracker.position_eq {c : Value} (h : HoldsTracker c) (s : Stream) :
    ∃ x d, Rule.position s c = .ok (.ok s (.position x) d) ∧ HoldsTracker d := by
  obtain ⟨⟨entries, rfl⟩, t, htracker⟩ := h
  exact ⟨t.locate s, Rule.withTracker (t.moveTo s) (.table entries),
    Leaf.position_of_tracker htracker s, .withTracker _ entries⟩

/-- A scope puts a new tracker into a table, counting from where the scope begins. -/
theorem eq_of_trackedContext {s : Stream} {c d : Value} (h : Coupling.trackedContext s c = .ok d) :
    ∃ entries, d = Rule.withTracker (.start s) (.table entries) := by
  cases c with
  | table entries =>
    cases h
    exact ⟨entries, rfl⟩
  | _ => cases h

/-- No leaf or operation takes the tracker out of a context. -/
theorem Coupling.holdsTracker_grants :
    (Coupling.alone (fun _ => True) HoldsTracker : Coupling Log Log).Grants .library := by
  refine alone_grants (fun _ hl => hl) (fun _ hop => hop) (fun _ _ _ _ _ _ _ => trivial)
    (fun _ _ _ _ => trivial) ?_ ?_
  · intro s c r _ hc hr
    obtain ⟨x, d, hposition, hd⟩ := hc.position_eq s
    rw [hposition] at hr
    cases hr
    exact hd
  · intro _ s c d _ _ h
    obtain ⟨entries, rfl⟩ := eq_of_trackedContext h
    exact .withTracker _ entries

/-- Where no new scope begins, the counting goes on from the same origin. -/
theorem Coupling.tracks_grants {origin : Stream} (horigin : origin.InBounds) :
    (Coupling.alone origin.LeadsTo (Tracks origin) : Coupling Log Log).Grants .untracked := by
  refine alone_grants (fun _ hl => hl) (fun _ hop => hop.1) ?_ ?_ ?_ fun hop => absurd rfl hop.2
  · intro l hl s c r hs hr
    exact hs.trans (Leaf.leadsTo_run hl (hs.inBounds horigin) hr)
  · intro s t hs ht
    exact hs.trans ((hs.inBounds horigin).leadsTo_skipBlanks ht)
  · intro s c r hs hc hr
    obtain ⟨d, hposition, hd⟩ := hc.position_eq horigin hs
    rw [hposition] at hr
    cases hr
    exact hd

/-! ## Behind a scope -/

/-- **A tracker outlives its scope.** Let a tracked parser return, with success or with failure. In
the context that it hands back, a position is never missing, at whatever stream. If no scope lies
inside, it is the count from where the tracked parser began, at every stream from there on; so it
would be with any other tracker around. -/
theorem Grammar.Over.position_behind_tracked {rules : Rules} (hrules : rules.Over .library)
    {g : Grammar} (hg : g.Over .library) {p : Parser Factory}
    (hp : (Grammar.unary .tracked g).check = .ok p) {budget : Nat} {s : Stream}
    {entries : Table.Entries} {log log' : Log} {r : Result}
    (hrun : p.direct rules budget s (.table entries) log = (.ok r, log')) :
    (∀ t, ∃ x d, Rule.position t r.context = .ok (.ok t (.position x) d)) ∧
    (rules.Over .untracked → g.Over .untracked → s.InBounds →
      ∀ t, s.LeadsTo t →
        ∃ d, Rule.position t r.context = .ok (.ok t (.position (s.positionFrom t)) d)) := by
  obtain ⟨part, hpart, h⟩ := ok_of_bind hp
  cases h
  cases budget with
  | zero => cases hrun
  | succ budget =>
    -- the part runs in a table with a fresh tracker, and its result is that of the whole
    change part.toRule (Host.direct rules (Parser.direct rules budget)) budget s
      (Rule.withTracker (.start s) (.table entries)) log = (.ok r, log') at hrun
    refine ⟨fun t => ?_, fun hrules hg hs t ht => ?_⟩
    · have hpart := Coupling.Rules.toRule Coupling.holdsTracker_grants hrules
        (fun q hq => Coupling.Rules.direct Coupling.holdsTracker_grants hrules budget hq) budget
          (hg.check hpart)
      obtain ⟨x, d, hposition, _⟩ :=
        (hpart.of_alone trivial (.withTracker _ entries) hrun).2.position_eq t
      exact ⟨x, d, hposition⟩
    · have hgrants := Coupling.tracks_grants hs
      have hpart := Coupling.Rules.toRule hgrants hrules
        (fun q hq => Coupling.Rules.direct hgrants hrules budget hq) budget (hg.check hpart)
      have hstart : Tracks s (Rule.withTracker (.start s) (.table entries)) :=
        .withTracker (.start hs) entries
      obtain ⟨d, hposition, _⟩ := (hpart.of_alone hs.leadsTo_self hstart hrun).2.position_eq hs ht
      exact ⟨d, hposition⟩

/-- A scope of one character, left by success: the position behind it is the first column of its own
count. -/
theorem position_behind_tracked_character :
    let s : Stream := ⟨⟨0, .text, #[97, 98]⟩, 0⟩
    let t : Stream := ⟨⟨0, .text, #[97, 98]⟩, 1⟩
    let behind : Value := Rule.withTracker (.start s) .emptyTable
    ∃ d, Rule.position t behind = .ok (.ok t (.position ⟨1, 1, 1⟩) d) := by
  intro s t behind
  have hchar : (Grammar.char 'a').Over .library := .char fun _ => nofun
  have hchar' : (Grammar.char 'a').Over .untracked := .char fun _ => nofun
  have hrules : Rules.Over .library fun _ => none :=
    ⟨fun _ _ => nofun, fun _ _ => nofun, fun _ _ => trivial⟩
  have hrules' : Rules.Over .untracked fun _ => none :=
    ⟨fun _ _ => nofun, fun _ _ => nofun, fun _ _ => trivial⟩
  have hrun : Parser.direct (fun _ => none) 1 (.unary .tracked (.leaf (.char (.exactly 97)))) s
      .emptyTable #[]
      = (.ok (.ok t (.text [97]) behind), #[]) := by
    rfl
  have hs : s.InBounds := ⟨by decide, by decide⟩
  exact (hchar.position_behind_tracked hrules rfl hrun).2 hrules' hchar' hs t
    ⟨rfl, by decide, by decide⟩

/-- **Positions are not scoped.** Behind a scope, with none around, a position is answered where it
should be missing; and in an outer scope, behind an inner one, it is counted from the inner start
and not from the outer. -/
theorem position_not_scoped :
    let outside : Grammar := .serial [.unary .tracked (.leaf (.char .any)), .leaf .position]
    let nested : Grammar := .unary .tracked
      (.serial [.leaf (.char .any), .unary .tracked (.leaf (.char .any)), .leaf .position])
    let src : Source := ⟨0, .text, #[97, 98, 99]⟩
    (∃ p s c, outside.check = .ok p ∧ (p.direct (fun _ => none) 1 ⟨src, 0⟩ .emptyTable #[]).1
      = .ok (.ok s (.tuple [.text [97], .position ⟨1, 1, 1⟩]) c)) ∧
    ∃ p s c, nested.check = .ok p ∧ (p.direct (fun _ => none) 1 ⟨src, 0⟩ .emptyTable #[]).1
      = .ok (.ok s (.tuple [.text [97], .text [98], .position ⟨1, 1, 1⟩]) c) ∧
      Stream.positionFrom ⟨src, 0⟩ s = ⟨2, 1, 2⟩ :=
  ⟨⟨_, _, _, rfl, rfl⟩, _, _, _, rfl, rfl, rfl⟩

end Descent
