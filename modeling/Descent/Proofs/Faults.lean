import Descent.Call
import Descent.Proofs.Names
import Descent.Proofs.Scopes

/-!
# Descent — parses without faults

Building refuses what makes no sense, so that parsing need not: of a parser that was built, whose
callbacks are never at fault and whose deferred parts can be built, no parse is at fault. The one
exception is a tracker that is started in a context that is no table. Inside the source every view
of a stream is defined, and the streams of a run never leave it. Traces belong to the library, but
the wording of what they log is left to who reads the log (`Outcome.worded`), and is no part of the
parse.

The key of trackers is the library's own. Where something else was put under it from outside, the
position leaf has nothing to ask, and this is the one more fault that such a context brings.

* **`Palette.faultless`** — the library parts whose callbacks return, with nothing built later at
  fault.
* **`Leaf.returns_run`** — every such leaf but the position ends in a result, at every stream inside
  its source.
* **`Coupling.faultless`** — a run with itself, whose stops are the budget, the tracker without a
  table and the position without a tracker to ask.
* **`Grammar.Over.returns_or_untracked`** — the statement for calls, on every input and in every
  context.
-/

namespace Descent

/-! ## Computations that return -/

def Returns {α : Type} (x : Except Fault α) : Prop :=
  ∃ a, x = .ok a

/-- What returns may be followed by what returns. -/
theorem Returns.bind {α β : Type} {first : Except Fault α} {next : α → Except Fault β}
    (hfirst : Returns first) (hnext : ∀ a, Returns (next a)) : Returns (first >>= next) := by
  obtain ⟨a, rfl⟩ := hfirst
  exact hnext a

/-- All library parts whose callbacks return. Trackers are admitted where `tracking` holds, and
nothing that is built during the parse may be at fault. -/
def Palette.faultless (tracking : Prop) : Palette where
  leaf
    | .unit accepts _ => ∀ x, Returns (accepts x)
    | .escapedBy _ decode => ∀ x, Returns (decode x)
    | .custom _ => False
    | _ => True
  unary
    | .map f | .mapError f => ∀ x, Returns (f x)
    | .tracked => tracking
    | .hooked _ => False
    | _ => True
  fault _ := False

/-! ## Leaves -/

namespace Stream.InBounds

variable {s : Stream}

/-- Inside the source an index is never out of range. -/
theorem returns_peek (hs : s.InBounds) (n : Nat) : Returns (s.peek n) :=
  ⟨_, hs.peek_eq n⟩

/-- The length of what is left can be told, since that of the whole source can. -/
theorem returns_length (hs : s.InBounds) (hsize : s.source.size ≤ maxWord) : Returns s.length := by
  have hlen := hs.length_rest
  have hnonneg := hs.nonneg
  rw [hs.length_eq, if_neg (by omega)]
  exact ⟨_, rfl⟩

theorem returns_skipBlanks (hs : s.InBounds) : Returns s.skipBlanks := by
  obtain ⟨n, -, hskip, -⟩ := hs.skipBlanks_alike hs rfl rfl
  exact ⟨_, hskip⟩

end Stream.InBounds

namespace Leaf

variable {s : Stream}

theorem returns_matchUnit (hs : s.InBounds) (kind : Kind) (mem : Nat → Bool) (tag : Tag)
    (c : Value) :
    Returns (matchUnit kind mem tag s c) := by
  refine (hs.returns_peek 0).bind fun next => ?_
  cases next with
  | none => exact ⟨_, rfl⟩
  | some u =>
    simp only
    split
    · exact ⟨_, rfl⟩
    · exact ⟨_, rfl⟩

/-- Only the function can raise here, and it does not. -/
theorem returns_matchTest (hs : s.InBounds) {accepts : Value → Except Fault Bool}
    (haccepts : ∀ x, Returns (accepts x)) (error c : Value) :
    Returns (matchTest accepts error s c) := by
  refine (hs.returns_peek 0).bind fun next => ?_
  cases next with
  | none => exact ⟨_, rfl⟩
  | some u =>
    refine (haccepts _).bind fun accepted => ?_
    cases accepted with
    | true => exact ⟨_, rfl⟩
    | false => exact ⟨_, rfl⟩

theorem returns_matchHex (hs : s.InBounds) (case : HexCase) (c : Value) :
    Returns (matchHex case s c) := by
  refine (hs.returns_peek 0).bind fun next => ?_
  cases next with
  | none => exact ⟨_, rfl⟩
  | some u =>
    simp only
    split
    · split
      · exact ⟨_, rfl⟩
      · exact ⟨_, rfl⟩
    · exact ⟨_, rfl⟩

theorem returns_atControl (hs : s.InBounds) (control : Nat) : Returns (atControl control s) :=
  (hs.returns_peek 0).bind fun _ => ⟨_, rfl⟩

theorem returns_matchEntry (hs : s.InBounds) (control : Nat) (entries : List (Nat × Value))
    (c : Value) :
    Returns (matchEntry control entries s c) := by
  refine (returns_atControl hs control).bind fun here => ?_
  cases here with
  | false => exact ⟨_, rfl⟩
  | true =>
    refine (hs.returns_peek 1).bind fun next => ?_
    cases next.bind (meaningOf? · entries) with
    | none => exact ⟨_, rfl⟩
    | some v => exact ⟨_, rfl⟩

/-- The length of the rest is taken first, which does not raise inside the source. -/
theorem returns_matchDecoded (hs : s.InBounds) (hsize : s.source.size ≤ maxWord) (control : Nat)
    {decode : Value → Except Fault Value} (hdecode : ∀ x, Returns (decode x)) (c : Value) :
    Returns (matchDecoded control decode s c) := by
  refine (hs.returns_length hsize).bind fun n => ?_
  split
  · exact ⟨_, rfl⟩
  · refine (returns_atControl hs control).bind fun here => ?_
    split
    · exact ⟨_, rfl⟩
    · refine (hs.returns_peek 1).bind fun next => ?_
      cases next with
      | none => exact ⟨_, rfl⟩
      | some u =>
        refine (hdecode _).bind fun v => ?_
        cases v with
        | null => exact ⟨_, rfl⟩
        | _ => exact ⟨_, rfl⟩

/-- A leaf whose callbacks return ends in a result, on text and on bytes alike. The position leaf
alone depends on what the context holds. -/
theorem returns_run {tracking : Prop} {l : Leaf} (hl : (Palette.faultless tracking).leaf l)
    (hposition : l ≠ .position) (hs : s.InBounds) (hsize : s.source.size ≤ maxWord) (c : Value) :
    Returns (l.run s c) := by
  cases l with
  | succeed v => exact ⟨_, rfl⟩
  | fail e => exact ⟨_, rfl⟩
  | unit accepts error => exact returns_matchTest hs hl error c
  | char cls => exact returns_matchUnit hs _ _ _ c
  | hex case => exact returns_matchHex hs case c
  | string literal => exact ⟨_, rfl⟩
  | crlf => exact ⟨_, rfl⟩
  | linebreak => exact ⟨_, rfl⟩
  | byte cls => exact returns_matchUnit hs _ _ _ c
  | slice literal => exact ⟨_, rfl⟩
  | escapedWith control entries => exact returns_matchEntry hs control entries c
  | escapedBy control decode => exact returns_matchDecoded hs hsize control hl c
  | endOfInput =>
    -- the length is asked for, which is a place where a stream could raise
    refine (hs.returns_length hsize).bind fun n => ?_
    split
    · exact ⟨_, rfl⟩
    · exact ⟨_, rfl⟩
  | position => exact absurd rfl hposition
  | custom run => exact hl.elim

end Leaf

/-! ## Contexts

A context stays as it is until a tracker is put in, and from then on it holds one. -/

/-- What the library itself may keep under the key of trackers: a tracker, or null for none. -/
def Value.TrackerOrNull : Value → Prop
  | .null | .tracker _ => True
  | _ => False

/-- Only something foreign under the key of trackers is at fault, and the fault names its type. -/
theorem Rule.foreign_of_trackerOf? {c : Value} {f : Fault} (h : trackerOf? c = .error f) :
    ∃ v, c.get? .trackerKey = some v ∧ ¬ v.TrackerOrNull ∧ f = .notTracker v.typeName := by
  unfold trackerOf? at h
  split at h
  · cases h
  · cases h
  · cases h
  · next v hnull htracker hv =>
    cases h
    refine ⟨v, hv, fun hown => ?_, rfl⟩
    cases v with
    | null => exact hnull rfl
    | tracker t => exact htracker t rfl
    | _ => exact hown

/-- Nothing but a table has entries. -/
theorem Value.table_of_get? {c key v : Value} (h : c.get? key = some v) :
    ∃ entries, c = .table entries := by
  cases c with
  | table entries => exact ⟨entries, rfl⟩
  | _ => cases h

/-- So a context that yields a tracker is a table. -/
theorem Rule.table_of_trackerOf? {c : Value} {t : Tracker} (h : trackerOf? c = .ok (some t)) :
    ∃ entries, c = .table entries := by
  unfold trackerOf? at h
  split at h
  · cases h
  · cases h
  · next hget => exact Value.table_of_get? hget
  · cases h

/-- What a context that began as `c₀` may have become. -/
def Value.BecomeOf (c₀ c : Value) : Prop :=
  c = c₀ ∨ HoldsTracker c

/-- A leaf other than the position hands on the context that it was given. -/
theorem Leaf.context_run {l : Leaf} (hcustom : ∀ run, l ≠ .custom run) (hposition : l ≠ .position)
    {s : Stream} (hs : s.InBounds) {c : Value} {r : Result} (h : l.run s c = .ok r) :
    r.context = c := by
  cases steps_run hcustom hposition hs h with
  | stay => rfl
  | move _ => rfl

/-! ## Whole parsers -/

/-- The ways in which a faultless parser that began in the context `c` may be stopped. -/
inductive Stop.Excused (tracking : Prop) (c : Value) : Stop → Prop where
  | exhausted : Excused tracking c .exhausted
  | contextNotTable (htracking : tracking) (hc : ∀ entries, c ≠ .table entries) :
      Excused tracking c (.fault (.contextNotTable c.typeName))
  | notTracker {v : Value} (hv : c.get? .trackerKey = some v) (hforeign : ¬ v.TrackerOrNull) :
      Excused tracking c (.fault (.notTracker v.typeName))

namespace Coupling

/-- A run with itself inside its source, which is stopped for one of these reasons only. -/
def faultless (tracking : Prop) (start : Stream) (c₀ : Value) : Coupling Log Log :=
  { alone start.LeadsTo c₀.BecomeOf with
    stop := fun e f => e = f ∧ e.Excused tracking c₀
    exhausted := ⟨rfl, .exhausted⟩ }

variable {tracking : Prop} {start : Stream} {c₀ : Value}

/-- The position leaf is at fault in the context of the beginning only, as long as nothing has put a
tracker in its place. -/
theorem faultless_position : (faultless tracking start c₀).Leaves .position .position := by
  rintro s _ c _ ⟨rfl, hs⟩ ⟨rfl, hc⟩
  show (faultless tracking start c₀).Excepts _ (Rule.position s c) (Rule.position s c)
  obtain ⟨-, hrun⟩ | ⟨t, htracker, hrun⟩ | ⟨f, hfault, hrun⟩ := Leaf.position_cases s c
  · rw [hrun]
    exact .ok (.err ⟨rfl, hs⟩ rfl ⟨rfl, hc⟩)
  · obtain ⟨entries, rfl⟩ := Rule.table_of_trackerOf? htracker
    rw [hrun]
    exact .ok (.ok ⟨rfl, hs⟩ rfl ⟨rfl, .inr (.withTracker _ entries)⟩)
  · rw [hrun]
    obtain rfl | hholds := hc
    · obtain ⟨v, hv, hforeign, rfl⟩ := Rule.foreign_of_trackerOf? hfault
      exact .error ⟨rfl, .notTracker hv hforeign⟩
    · obtain ⟨t, htracker⟩ := hholds.tracker
      rw [htracker] at hfault
      cases hfault

/-- Every other leaf ends in a result, and the context stays as it is. -/
theorem faultless_leaf (hstart : start.InBounds) (hsize : start.source.size ≤ maxWord) {l : Leaf}
    (hl : (Palette.faultless tracking).leaf l) (hposition : l ≠ .position) :
    (faultless tracking start c₀).Leaves l l := by
  rintro s _ c _ ⟨rfl, hs⟩ ⟨rfl, hc⟩
  have hcustom (run : Stream → Value → Except Fault Result) : l ≠ .custom run := by
    rintro rfl
    exact hl
  have hbounds := hs.inBounds hstart
  obtain ⟨r, hr⟩ := Leaf.returns_run hl hposition hbounds (by rw [hs.source]; exact hsize) c
  have hstream := hs.trans (Leaf.leadsTo_run hcustom hbounds hr)
  obtain rfl := Leaf.context_run hcustom hposition hbounds hr
  rw [hr]
  cases r with
  | ok t x d => exact .ok (.ok ⟨rfl, hstream⟩ rfl ⟨rfl, hc⟩)
  | err t e d => exact .ok (.err ⟨rfl, hstream⟩ rfl ⟨rfl, hc⟩)

/-- A tracker is put into whatever table there is, be its entry foreign or not. -/
theorem faultless_tracked (htracking : tracking) (s : Stream) {c : Value} (hc : c₀.BecomeOf c) :
    (faultless tracking start c₀).Excepts (faultless tracking start c₀).context (trackedContext s c)
      (trackedContext s c) := by
  by_cases htable : ∃ entries, c = .table entries
  · obtain ⟨entries, rfl⟩ := htable
    exact .ok ⟨rfl, .inr (.withTracker _ entries)⟩
  · -- a context that is no table is the one that the parser began in
    obtain rfl | hholds := hc
    · have hnot (entries : Table.Entries) : c ≠ .table entries := fun h => htable ⟨entries, h⟩
      rw [trackedContext_of_not_table hnot]
      exact .error ⟨rfl, .contextNotTable htracking hnot⟩
    · exact absurd hholds.table htable

/-- The leaves and operations of the alphabet do not raise, one by one. -/
theorem faultless_grants (hstart : start.InBounds) (hsize : start.source.size ≤ maxWord) :
    (faultless tracking start c₀).Grants (.faultless tracking) where
  leaf l hl := by
    by_cases hposition : l = .position
    · rw [hposition]
      exact faultless_position
    · exact faultless_leaf hstart hsize hl hposition
  unary op hop := by
    cases op with
    | map f =>
      -- callbacks return, as the alphabet asks of them
      rintro x _ rfl
      obtain ⟨y, hy⟩ := hop x
      rw [hy]
      exact .ok rfl
    | mapError f =>
      rintro x _ rfl
      obtain ⟨y, hy⟩ := hop x
      rw [hy]
      exact .ok rfl
    | trimmed =>
      -- to skip blanks is to look ahead, which does not raise inside the source
      rintro s _ ⟨rfl, hs⟩
      have hbounds := hs.inBounds hstart
      obtain ⟨t, ht⟩ := hbounds.returns_skipBlanks
      rw [ht]
      exact .ok ⟨rfl, hs.trans (hbounds.leadsTo_skipBlanks ht)⟩
    | tracked =>
      rintro s _ c _ ⟨rfl, _⟩ ⟨rfl, hc⟩
      exact faultless_tracked hop s hc
    | traced label =>
      exact .of_eq (fun _ _ h => h.1) (fun _ _ h => h) (fun _ _ h => h) fun _ _ => .rfl
    | optional => trivial
    | many least most => trivial
    | many1 => trivial
    | context initial => trivial
    | hooked hook => exact hop.elim
  fault _ h := h.elim
  output _ _ h := h

end Coupling

/-! ## Calls -/

/-- What a parser can be run on: text, bytes, or a stream inside its source. Whatever is held in
memory is no longer than a machine word can tell. -/
inductive Input.Readable : Input → Prop where
  | text {t : Text} (h : t.length ≤ maxWord) : Readable (.value (.text t))
  | bytes {b : List Nat} (h : b.length ≤ maxWord) : Readable (.value (.bytes b))
  | buffer {b : List Nat} (h : b.length ≤ maxWord) : Readable (.value (.buffer b))
  | stream {s : Stream} (hs : s.InBounds) (h : s.source.size ≤ maxWord) : Readable (.stream s)

/-- An input that can be read gives a stream inside its source. -/
theorem Input.Readable.toStream {input : Input} (h : input.Readable) (ident : Nat) :
    ∃ s, input.toStream ident = .ok s ∧ s.InBounds ∧ s.source.size ≤ maxWord := by
  have hwhole (kind : Kind) (units : List Nat) (hlen : units.length ≤ maxWord) :
      Stream.InBounds ⟨⟨ident, kind, units.toArray⟩, 0⟩ ∧
        (Source.size ⟨ident, kind, units.toArray⟩ : Int) ≤ maxWord :=
    ⟨⟨Int.le_refl 0, Int.natCast_nonneg _⟩, hlen⟩
  cases h with
  | text hlen => exact ⟨_, rfl, hwhole .text _ hlen⟩
  | bytes hlen => exact ⟨_, rfl, hwhole .bytes _ hlen⟩
  | buffer hlen => exact ⟨_, rfl, hwhole .bytes _ hlen⟩
  | stream hs hsize => exact ⟨_, rfl, hs, hsize⟩

/-- Every known name has a grammar over the palette, which can be built and refers to known names
only. -/
def Rules.Supplies (P : Palette) (known : Text → Prop) (rules : Rules) : Prop :=
  ∀ name, known name → ∃ g, rules name = some g ∧ g.Over P ∧ g.Builds P ∧ g.RefersTo known

/-- The rules with a grammar for every name; the names that are not known make no difference. -/
theorem Rules.Supplies.exists_total {tracking : Prop} {known : Text → Prop} {rules : Rules}
    (h : rules.Supplies (.faultless tracking) known) :
    ∃ rules' : Rules, rules'.Over (.faultless tracking) ∧
      ∀ {p : Parser Factory}, p.RefersTo known → ∀ budget,
      p.direct rules budget = p.direct rules' budget := by
  classical
  -- a palette asks something of every name, so a name that is not known gets a grammar that only
  -- fails
  let unused : Grammar := .leaf (.fail .null)
  let total : Rules := fun name => if known name then rules name else some unused
  have hunused : unused.Over (.faultless tracking) ∧ unused.Builds (.faultless tracking) :=
    ⟨.leaf trivial, fun f hf => nomatch hf⟩
  have htotal (name : Text) : ∃ g, total name = some g ∧ g.Over (.faultless tracking) ∧
      g.Builds (.faultless tracking) := by
    by_cases hname : known name
    · obtain ⟨g, hg, hover, hbuild, -⟩ := h name hname
      exact ⟨g, by rw [← hg]; exact if_pos hname, hover, hbuild⟩
    · exact ⟨unused, if_neg hname, hunused⟩
  refine ⟨total, ⟨?_, ?_, ?_⟩, fun hp budget => ?_⟩
  · intro name g hg
    obtain ⟨g', hg', hover, -⟩ := htotal name
    rw [hg] at hg'
    cases hg'
    exact hover
  · intro name g hg
    obtain ⟨g', hg', -, hbuild⟩ := htotal name
    rw [hg] at hg'
    cases hg'
    exact hbuild
  · intro name hnone
    obtain ⟨g, hg, -⟩ := htotal name
    rw [hnone] at hg
    cases hg
  · refine hp.direct_eq ?_ (fun name hname => (if_pos hname).symm) budget
    intro name hname g hg
    obtain ⟨g', hg', -, -, hclosed⟩ := h name hname
    rw [hg] at hg'
    cases hg'
    exact hclosed

/-- **No parse is at fault.** Let a parser be built of library parts whose callbacks return, and let
all that it comes to select, to build and to name later be such and be there. Called on text, on
bytes or on a stream inside its source, it ends in a result or uses up its budget. The one fault it
may come to is that of a tracker, if trackers are admitted, in a context that is no table.

This is so in every context in which nobody has put anything of his own under the key of trackers,
as nobody has a reason to. In the others the only fault is that of a position, which cannot be asked
of what is there. -/
theorem Grammar.Over.returns_or_untracked {tracking : Prop} {known : Text → Prop} {rules : Rules}
    (hrules : rules.Supplies (.faultless tracking) known) {g : Grammar}
    (hg : g.Over (.faultless tracking)) (hnames : g.RefersTo known) {p : Parser Factory}
    (hp : g.check = .ok p) {call : Call} (hinput : call.input.Readable) (budget : Nat) (log : Log) :
    let c := call.context.getD p.defaultContext
    let outcome := (call.run p.defaultContext (p.direct rules budget) log).1
    ((∀ v, c.get? .trackerKey = some v → v.TrackerOrNull) →
      (∃ r, outcome = .ok r) ∨ outcome = .error .exhausted ∨
        tracking ∧ (∀ entries, c ≠ .table entries) ∧
          outcome = .error (.fault (.contextNotTable c.typeName))) ∧
    ∀ v, c.get? .trackerKey = some v → ¬ v.TrackerOrNull →
      (∃ r, outcome = .ok r) ∨ outcome = .error .exhausted ∨
        outcome = .error (.fault (.notTracker v.typeName)) := by
  intro c outcome
  obtain ⟨s, hs, hbounds, hsize⟩ := hinput.toStream call.ident
  obtain ⟨total, htotal, hdirect⟩ := hrules.exists_total
  -- the parser reaches known names only, so it may as well run with the rules that have every name
  have houtcome : outcome = (p.direct total budget s c log).1 := by
    show (call.run p.defaultContext (p.direct rules budget) log).1 = _
    rw [Call.run, hs, hdirect (hnames.check hp)]
    rfl
  have hgrants : (Coupling.faultless tracking s c).Grants (.faultless tracking) :=
    Coupling.faultless_grants hbounds hsize
  have hend := Coupling.Rules.direct hgrants htotal budget (hg.check hp)
    ⟨rfl, hbounds.leadsTo_self⟩ ⟨rfl, .inl rfl⟩ log log rfl
  rw [houtcome]
  generalize p.direct total budget s c log = ending at hend ⊢
  cases hend with
  | returned _ _ => exact ⟨fun _ => .inl ⟨_, rfl⟩, fun _ _ _ => .inl ⟨_, rfl⟩⟩
  | stopped he _ =>
    obtain ⟨-, hexcused⟩ := he
    cases hexcused with
    | exhausted => exact ⟨fun _ => .inr (.inl rfl), fun _ _ _ => .inr (.inl rfl)⟩
    | contextNotTable htracking hnot =>
      -- a context without entries has nothing foreign under the key
      refine ⟨fun _ => .inr (.inr ⟨htracking, hnot, rfl⟩), fun v hv _ => ?_⟩
      obtain ⟨entries, hc⟩ := Value.table_of_get? hv
      exact absurd hc (hnot entries)
    | notTracker hv hforeign =>
      refine ⟨fun hown => absurd (hown _ hv) hforeign, fun w hw _ => ?_⟩
      rw [hv] at hw
      cases hw
      exact .inr (.inr rfl)

/-- A position that may be missing, and nested brackets through a name of their own around a
tracker. Without a table the tracker is at fault; with something foreign under the key it is the
position. -/
theorem returns_or_untracked_nested :
    let name : Text := .ofString "nested"
    let tracked : Grammar := .unary .tracked (.leaf .position)
    let nested : Grammar := .choice [.between (.char '(') (.char ')') (.ref name), tracked]
    let rules : Rules := fun n => if n = name then some nested else none
    let g : Grammar := .serial [.optional (.leaf .position), .ref name]
    let input : Input := .value (.text (.ofString "(()"))
    let foreign : Value := .table [(.trackerKey, .int 1)]
    ∃ p, g.check = .ok p ∧
      let outcome (c : Value) :=
        (Call.run ⟨0, input, some c⟩ p.defaultContext (p.direct rules 8) #[]).1
      outcome .null = .error (.fault (.contextNotTable "NoneType")) ∧
      outcome foreign = .error (.fault (.notTracker "int")) ∧
      ((∃ r, outcome .null = .ok r) ∨ outcome .null = .error .exhausted ∨
        True ∧ (∀ entries, Value.null ≠ .table entries) ∧
          outcome .null = .error (.fault (.contextNotTable "NoneType"))) ∧
      ((∃ r, outcome foreign = .ok r) ∨ outcome foreign = .error .exhausted ∨
        outcome foreign = .error (.fault (.notTracker "int"))) := by
  intro name tracked nested rules g input foreign
  have hposition : (Grammar.leaf .position).Over (.faultless True) := .leaf trivial
  have htracked : tracked.Over (.faultless True) := .unary trivial hposition
  have hnested : nested.Over (.faultless True) :=
    .choice (List.forall_mem_cons.mpr
      ⟨.between (.char trivial) (.char trivial) .ref, List.forall_mem_singleton.mpr htracked⟩)
  have hnames : nested.RefersTo (· = name) :=
    .choice (List.forall_mem_cons.mpr
      ⟨.between .terminal .terminal (.ref rfl), List.forall_mem_singleton.mpr (.unary .terminal)⟩)
  have hbuilds : nested.Builds (.faultless True) := fun f hf => nomatch hf
  have hrules : rules.Supplies (.faultless True) (· = name) := by
    rintro _ rfl
    exact ⟨nested, if_pos rfl, hnested, hbuilds, hnames⟩
  have hoptional : (Palette.faultless True).unary .optional := trivial
  have hg : g.Over (.faultless True) :=
    .serial
      (List.forall_mem_cons.mpr ⟨.unary hoptional hposition, List.forall_mem_singleton.mpr .ref⟩)
  have hnames' : g.RefersTo (· = name) :=
    .serial (List.forall_mem_cons.mpr ⟨.unary .terminal, List.forall_mem_singleton.mpr (.ref rfl)⟩)
  have hinput (c : Value) : (Call.mk 0 input (some c)).input.Readable := .text (by decide)
  have happlied (c : Value) := hg.returns_or_untracked hrules hnames' rfl (hinput c) 8 #[]
  refine ⟨_, rfl, rfl, rfl, ?_, ?_⟩
  · exact (happlied .null).1 fun v hv => nomatch hv
  · exact (happlied foreign).2 (.int 1) rfl id

end Descent
