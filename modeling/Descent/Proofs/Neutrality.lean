import Descent.Proofs.Tracking
import Descent.Proofs.Views

/-!
# Descent — what parsers do to contexts

Of all that a context holds, library parts know the tracker alone. They never look at the other
entries and never change them, on whatever way a context takes through attempts that succeed and
attempts that fail. Without parts that ask for positions or track them, a context is not looked at
at all.

* **`Table.without`** — the entries of a table but for those of a key.
* **`KeepsOwn`** — two tables on the way: each has the entries that it began with, and their
  trackers are the same.
* **`Coupling.parallel`** — two runs at one stream that differ in their contexts only.
* **`Grammar.Over.context_neutral`** — both statements for whole parsers.
-/

namespace Descent

/-! ## Tables without their tracker -/

/-- The entries of other keys, in order. -/
def Table.without (key : Value) (entries : Table.Entries) : Table.Entries :=
  entries.filter fun entry => !entry.1.same key

/-- Apart from one key, an entry for this key makes no difference. -/
theorem Table.without_insert {key : Value} (hkey : key.same key = true) (v : Value)
    (entries : Table.Entries) :
    without key (insert key v entries) = without key entries := by
  induction entries with
  | nil => simp [Table.without, Table.insert, hkey]
  | cons entry entries ih =>
    obtain ⟨k, w⟩ := entry
    rw [Table.insert]
    by_cases hk : k.same key = true
    · simp [Table.without, hk]
    · rw [if_neg hk]
      simp only [Table.without, List.filter_cons, hk] at ih ⊢
      rw [ih]

/-- Two contexts that were the tables `left` and `right`. -/
inductive KeepsOwn (left right : Table.Entries) : Value → Value → Prop where
  | tables {es fs : Table.Entries}
      (hleft : Table.without .trackerKey es = Table.without .trackerKey left)
      (hright : Table.without .trackerKey fs = Table.without .trackerKey right)
      (htracker : Table.get? .trackerKey es = Table.get? .trackerKey fs) :
        KeepsOwn left right (.table es) (.table fs)

namespace KeepsOwn

variable {left right : Table.Entries} {c d : Value}

/-- Contexts that agree on the own entry hold the same tracker, or raise the same fault. -/
theorem trackerOf?_eq (h : KeepsOwn left right c d) : Rule.trackerOf? c = Rule.trackerOf? d := by
  cases h with
  | tables _ _ htracker => rw [Rule.trackerOf?, Rule.trackerOf?, Value.get?, Value.get?, htracker]

/-- Both take the same new tracker. -/
theorem withTracker (h : KeepsOwn left right c d) (t : Tracker) :
    KeepsOwn left right (Rule.withTracker t c) (Rule.withTracker t d) := by
  cases h with
  | tables hleft hright _ =>
    refine .tables ?_ ?_ ?_
    · rw [Table.without_insert Value.same_trackerKey, hleft]
    · rw [Table.without_insert Value.same_trackerKey, hright]
    · rw [Table.get?_insert_self Value.same_trackerKey,
        Table.get?_insert_self Value.same_trackerKey]

end KeepsOwn

/-! ## Two runs at one stream -/

/-- Two ends of runs that differ in their contexts only, which are related. -/
inductive SameBut (R : Value → Value → Prop) : Except Stop Result → Except Stop Result → Prop where
  | ok {s : Stream} {x c d : Value} (h : R c d) : SameBut R (.ok (.ok s x c)) (.ok (.ok s x d))
  | err {s : Stream} {e c d : Value} (h : R c d) : SameBut R (.ok (.err s e c)) (.ok (.err s e d))
  | stopped {e : Stop} : SameBut R (.error e) (.error e)

namespace Coupling

/-- Equal runs up to the contexts. -/
def parallel (R : Value → Value → Prop) : Coupling Log Log where
  stream := Eq
  context := R
  output := Eq
  error := Eq
  state := Eq
  halted := Eq
  stop := Eq
  halt h := h
  exhausted := rfl
  null := rfl
  tuple := @tuple_eq
  list := @list_eq
  shortfall := @shortfall_eq

variable {R : Value → Value → Prop}

/-- A leaf does not look at the context. -/
theorem parallel_leaf {l : Leaf} (hcustom : ∀ run, l ≠ .custom run) (hposition : l ≠ .position) :
    (parallel R).Leaves l l := by
  rintro s _ c d rfl hc
  exact (Leaf.alike_run hcustom hposition (.refl s) c d).excepts (fun _ => rfl) (fun _ => rfl)
    (fun _ => rfl) rfl hc
    fun _ _ _ => rfl

/-- Events tell nothing of contexts. -/
theorem parallel_notes (label : Text) :
    (parallel R).Notes (fun event log => log.push event) (fun event log => log.push event) label :=
  .of_eq (fun _ _ h => h) (fun _ _ h => h) (fun _ _ h => h) fun _ _ => .rfl

/-- What is left to ask of a palette: that its position leaf and its tracker relate contexts. -/
theorem parallel_grants {P : Palette} (hcustom : ∀ l, P.leaf l → ∀ run, l ≠ .custom run)
    (hhooked : ∀ op, P.unary op → ∀ hook, op ≠ .hooked hook)
    (hposition : P.leaf .position → (parallel R).Leaves .position .position)
    (htracked : P.unary .tracked → ∀ s c d, R c d →
      (parallel R).Excepts R (trackedContext s c) (trackedContext s d)) :
    (parallel R).Grants P where
  leaf l hl := by
    by_cases hl' : l = .position
    · subst hl'
      exact hposition hl
    · exact parallel_leaf (hcustom l hl) hl'
  unary op hop := by
    refine allows_of_eq (fun _ _ => .rfl) (fun _ _ => .rfl) (fun _ => rfl) (hhooked op hop) ?_ ?_
      fun label _ =>
      parallel_notes label
    · rintro s _ rfl
      exact .refl (fun _ _ => rfl) fun _ _ => rfl
    · rintro rfl s _ c d rfl hc
      exact htracked hop s c d hc
  fault _ _ := rfl
  output _ _ h := h

/-- In two tables with one tracker, positions are the same and both trackers move on alike. -/
theorem keepsOwn_position (left right : Table.Entries) :
    (parallel (KeepsOwn left right)).Leaves .position .position := by
  rintro s _ c d rfl hc
  show (parallel _).Excepts _ (Rule.position s c) (Rule.position s d)
  rw [Rule.position, Rule.position, hc.trackerOf?_eq]
  cases Rule.trackerOf? d with
  | error f => exact .error rfl
  | ok t? =>
    cases t? with
    | none => exact .ok (.err rfl rfl hc)
    | some t => exact .ok (.ok rfl rfl (hc.withTracker _))

/-- A new tracker is put into both contexts alike. -/
theorem keepsOwn_tracked {left right : Table.Entries} (s : Stream) {c d : Value}
    (hc : KeepsOwn left right c d) :
    (parallel (KeepsOwn left right)).Excepts (KeepsOwn left right) (trackedContext s c)
      (trackedContext s d) := by
  have hnew := hc.withTracker (.start s)
  cases hc with
  | tables _ _ _ => exact .ok hnew

/-- The coupled ends, in terms of what the two runs give back. -/
theorem parallel_end {x y : Except Stop Result × Log}
    (h : (parallel R).Ends (parallel R).Results x y) :
    SameBut R x.1 y.1 ∧ x.2 = y.2 := by
  cases h with
  | stopped he hstate =>
    obtain rfl := he
    exact ⟨.stopped, hstate⟩
  | returned hr hstate =>
    refine ⟨?_, hstate⟩
    cases hr with
    | ok hs hx hc =>
      obtain rfl := hs
      obtain rfl := hx
      exact .ok hc
    | err hs he hc =>
      obtain rfl := hs
      obtain rfl := he
      exact .err hc

end Coupling

/-! ## Whole parsers -/

/-- All library parts but those that ask for positions or track them. -/
def Palette.positionless : Palette where
  leaf l := (∀ run, l ≠ .custom run) ∧ l ≠ .position
  unary op := (∀ hook, op ≠ .hooked hook) ∧ op ≠ .tracked
  fault _ := True

/-- **Contexts are left alone.** Two runs of a parser of library parts, in two tables with the same
tracker or with none, end alike and log alike; each hands on its own entries, as they were and in
order, and both have the same tracker again. Without parts that ask for positions or track them,
this holds in any two contexts, and each is handed on as it was. -/
theorem Grammar.Over.context_neutral {rules : Rules} (hrules : rules.Over .library) {g : Grammar}
    (hg : g.Over .library) {p : Parser Factory} (hp : g.check = .ok p) (budget : Nat) (s : Stream)
    (log : Log) :
    (∀ left right, Table.get? .trackerKey left = Table.get? .trackerKey right →
      let x := p.direct rules budget s (.table left) log
      let y := p.direct rules budget s (.table right) log
      SameBut (KeepsOwn left right) x.1 y.1 ∧ x.2 = y.2) ∧
    (rules.Over .positionless → g.Over .positionless → ∀ c d,
      let x := p.direct rules budget s c log
      let y := p.direct rules budget s d log
      SameBut (fun c' d' => c' = c ∧ d' = d) x.1 y.1 ∧ x.2 = y.2) := by
  refine ⟨fun left right htracker => ?_, fun hrules hg c d => ?_⟩
  · -- only the trackers of the two tables are ever looked at, and these stay equal
    have hgrants : (Coupling.parallel (KeepsOwn left right)).Grants .library :=
      Coupling.parallel_grants (fun _ hl => hl) (fun _ hop => hop)
        (fun _ => Coupling.keepsOwn_position left right)
        fun _ s _ _ hc => Coupling.keepsOwn_tracked s hc
    exact Coupling.parallel_end <| Coupling.Rules.direct hgrants hrules budget (hg.check hp) rfl
      (.tables rfl rfl htracker) log log rfl
  · -- the relation pins both contexts, since nothing that is left looks at them or makes new ones
    have hgrants : (Coupling.parallel fun c' d' => c' = c ∧ d' = d).Grants .positionless :=
      Coupling.parallel_grants (fun _ hl => hl.1) (fun _ hop => hop.1) (fun hl => absurd rfl hl.2)
        fun hop => absurd rfl hop.2
    exact Coupling.parallel_end <|
      Coupling.Rules.direct hgrants hrules budget (hg.check hp) rfl ⟨rfl, rfl⟩ log log rfl

/-- A tracker that comes out of a failed attempt, beside an entry of the user and beside none; and a
grammar without positions, in a context that is no table and in one that is. -/
theorem context_neutral_after_attempt :
    let attempt : Grammar := .serial [.unary .tracked (.char 'a'), .char 'x']
    let g : Grammar := .serial [.optional attempt, .leaf .position]
    let s : Stream := ⟨⟨0, .text, #[97, 98]⟩, 0⟩
    let left : Table.Entries := [(.text [107], .int 1)]
    (∃ p, g.check = .ok p ∧
      let x := p.direct (fun _ => none) 4 s (.table left) #[]
      let y := p.direct (fun _ => none) 4 s (.table []) #[]
      SameBut (KeepsOwn left []) x.1 y.1 ∧ x.2 = y.2) ∧
    ∃ p, (Grammar.many1 (.char 'a')).check = .ok p ∧
      let x := p.direct (fun _ => none) 4 s .null #[]
      let y := p.direct (fun _ => none) 4 s (.table left) #[]
      SameBut (fun c d => c = .null ∧ d = .table left) x.1 y.1 ∧ x.2 = y.2 := by
  intro attempt g s left
  have hchar (c : Char) : (Grammar.char c).Over .library := .char fun _ => nofun
  have hpair {h h' : Grammar} (hh : h.Over .library) (hh' : h'.Over .library) :
      (Grammar.serial [h, h']).Over .library :=
    .serial (List.forall_mem_cons.mpr ⟨hh, List.forall_mem_singleton.mpr hh'⟩)
  have hattempt : attempt.Over .library := hpair (.unary (fun _ => nofun) (hchar 'a')) (hchar 'x')
  have hg : g.Over .library := hpair (.unary (fun _ => nofun) hattempt) (.leaf fun _ => nofun)
  have hmany : (Grammar.many1 (.char 'a')).Over .library := .unary (fun _ => nofun) (hchar 'a')
  have hplain : (Grammar.many1 (.char 'a')).Over .positionless :=
    .unary ⟨fun _ => nofun, nofun⟩ (.char ⟨fun _ => nofun, nofun⟩)
  have hrules : Rules.Over .library fun _ => none :=
    ⟨fun _ _ => nofun, fun _ _ => nofun, fun _ _ => trivial⟩
  have hrules' : Rules.Over .positionless fun _ => none :=
    ⟨fun _ _ => nofun, fun _ _ => nofun, fun _ _ => trivial⟩
  refine ⟨⟨_, rfl, (hg.context_neutral hrules rfl 4 s #[]).1 left [] ?_⟩,
    ⟨_, rfl, (hmany.context_neutral hrules rfl 4 s #[]).2 hrules' hplain .null (.table left)⟩⟩
  rfl

end Descent
