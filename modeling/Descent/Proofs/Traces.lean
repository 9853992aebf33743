import Descent.Proofs.Recast
import Descent.Proofs.Tracking

/-!
# Descent — traces are transparent and well nested

A trace is seen in the log and nowhere else, and so is a default context, which the call has looked
at before the parse begins. In the log every attempt is opened and, unless the run is stopped,
closed, also where a choice, an option or a repetition drops what came of it: whoever starts a
traced rule waits for its end.

* **`openAfter`** — the attempts that a list of events leaves open, the last one first. An event
  that closes anything but the last one, or closes it under another label or further back, leads
  nowhere.
* **`Recasting.untraced`** — the grammar without its traces and default contexts.
* **`Coupling.bracketing`** — a run beside the run of the untraced grammar, with the attempts that
  are open.
* **`Grammar.Over.traced_transparent`** — the statement for whole parsers.
-/

namespace Descent

/-! ## Open attempts -/

/-- A traced rule that has been tried and not yet ended. -/
structure Attempt where
  label : Text
  offset : Int
deriving DecidableEq, Repr

/-- The attempts that are left when the last one ends under a label and at an offset. -/
def Attempt.close (label : Text) (offset : Int) : List Attempt → Option (List Attempt)
  | [] => none
  | attempt :: attempts =>
    if attempt.label = label ∧ attempt.offset ≤ offset then some attempts else none

/-- The attempts that are open behind an event. -/
def Event.follow (attempts : List Attempt) : Event → Option (List Attempt)
  | trying label offset _ => some (⟨label, offset⟩ :: attempts)
  | matched label _ offset => Attempt.close label offset attempts
  | failed label _ offset => Attempt.close label offset attempts

/-- The attempts that are open behind a list of events. -/
def openAfter (events : List Event) : Option (List Attempt) :=
  events.foldlM Event.follow []

/-- One event more is followed from the attempts that were open before it. -/
theorem openAfter_concat {events : List Event} {attempts : List Attempt}
    (h : openAfter events = some attempts) (event : Event) :
    openAfter (events ++ [event]) = event.follow attempts := by
  rw [openAfter] at h ⊢
  rw [List.foldlM_append, h]
  simp

/-- An attempt that ends at or behind its start is closed. -/
theorem Event.follow_atEnd {label : Text} {s : Stream} {r : Result} (h : s.offset ≤ r.stream.offset)
    (attempts : List Attempt) :
    (Event.atEnd label r).follow (⟨label, s.offset⟩ :: attempts) = some attempts := by
  cases r with
  | ok t x c => exact if_pos ⟨rfl, h⟩
  | err t e c => exact if_pos ⟨rfl, h⟩

/-! ## Untraced grammars -/

/-- Traces and default contexts are left out, and everything else stays. -/
def Recasting.untraced : Recasting where
  terminal := id
  leaf := id
  unary
    | .traced _ => none
    | .context _ => none
    | op => some op
  read := id

/-- Only traces and contexts are taken out; every other operation is kept as it is. -/
theorem Recasting.untraced_unary (op : Unary) :
    (∃ label, op = .traced label) ∨ (∃ initial, op = .context initial) ∨
      untraced.unary op = some op := by
  cases op with
  | traced label => exact .inl ⟨label, rfl⟩
  | context initial => exact .inr (.inl ⟨initial, rfl⟩)
  | _ => exact .inr (.inr rfl)

theorem Recasting.untraced_lawful (P : Palette) : untraced.Lawful P where
  terminal t _ := by
    show t.check = t.check.map id
    cases t.check <;> rfl
  kept op op' h := by
    rcases untraced_unary op with ⟨label, rfl⟩ | ⟨initial, rfl⟩ | hop
    · cases h
    · cases h
    · rw [hop] at h
      cases h
      rfl
  erased op h := by
    rcases untraced_unary op with ⟨label, rfl⟩ | ⟨initial, rfl⟩ | hop
    · rfl
    · rfl
    · rw [hop] at h
      cases h

/-! ## A run beside the untraced run -/

/-- From where on a part is run, and inside which attempts. -/
structure Lookout where
  low : Stream
  inBounds : low.InBounds
  attempts : List Attempt

/-- The lookout of what is run at `s` inside one more attempt. -/
def Lookout.inside (i : Lookout) (label : Text) {s : Stream} (hs : i.low.LeadsTo s) : Lookout :=
  ⟨s, hs.inBounds i.inBounds, ⟨label, s.offset⟩ :: i.attempts⟩

/-- Equal results, and a log that has grown from `base` by events with the property `J`, which leave
open the attempts of the lookout. The untraced run leaves its log as it was. -/
def Coupling.bracketing (J : List Event → Prop) (base : List Event) (quiet : Log) (i : Lookout) :
    Coupling Log Log where
  stream s t := s = t ∧ i.low.LeadsTo s
  context := Eq
  output := Eq
  error := Eq
  state log log' := log' = quiet ∧ ∃ seen, log.toList = base ++ seen ∧ J seen ∧
    openAfter seen = some i.attempts
  halted log log' := log' = quiet ∧ ∃ seen, log.toList = base ++ seen ∧ J seen
  stop := Eq
  halt := by
    rintro log log' ⟨hquiet, seen, hlog, hseen, _⟩
    exact ⟨hquiet, seen, hlog, hseen⟩
  exhausted := rfl
  null := rfl
  tuple := @tuple_eq
  list := @list_eq
  shortfall := @shortfall_eq

namespace Coupling

variable {J : List Event → Prop} {base : List Event} {quiet : Log} {i : Lookout}

/-- Coupled results are equal, and the lookout leads to their stream. -/
theorem bracketing_results {a b : Result} :
    (bracketing J base quiet i).Results a b ↔ a = b ∧ i.low.LeadsTo a.stream := by
  constructor
  · rintro (⟨hs, hx, hc⟩ | ⟨hs, hx, hc⟩)
    · obtain ⟨rfl, hs⟩ := hs
      obtain rfl := hx
      obtain rfl := hc
      exact ⟨rfl, hs⟩
    · obtain ⟨rfl, hs⟩ := hs
      obtain rfl := hx
      obtain rfl := hc
      exact ⟨rfl, hs⟩
  · rintro ⟨rfl, hs⟩
    cases a with
    | ok s x c => exact .ok ⟨rfl, hs⟩ rfl rfl
    | err s e c => exact .err ⟨rfl, hs⟩ rfl rfl

/-- A leaf logs nothing and leads on, so it keeps to any lookout. -/
theorem bracketing_leaf {l : Leaf} (hcustom : ∀ run, l ≠ .custom run) :
    (bracketing J base quiet i).Leaves l l := by
  rintro s _ c _ ⟨rfl, hs⟩ rfl
  refine .refl (fun r hr => ?_) fun _ _ => rfl
  exact bracketing_results.mpr
    ⟨rfl, hs.trans (Leaf.leadsTo_run hcustom (hs.inBounds i.inBounds) hr)⟩

theorem bracketing_allows {op : Unary} (hhooked : ∀ hook, op ≠ .hooked hook)
    (htraced : ∀ label, op ≠ .traced label) :
    (bracketing J base quiet i).Allows note note op := by
  refine allows_of_eq (fun _ _ => .rfl) (fun _ _ => .rfl) (fun _ => rfl) hhooked ?_ ?_
    fun label h =>
    absurd h (htraced label)
  · rintro s _ ⟨rfl, hs⟩
    refine .refl (fun t ht => ?_) fun _ _ => rfl
    exact ⟨rfl, hs.trans ((hs.inBounds i.inBounds).leadsTo_skipBlanks ht)⟩
  · rintro _ s _ c _ ⟨rfl, _⟩ rfl
    exact .refl (fun _ _ => rfl) fun _ _ => rfl

/-- An operation that is no trace, and what stands for it. -/
theorem bracketing_untraced {op : Unary} (hhooked : ∀ hook, op ≠ .hooked hook)
    (htraced : ∀ label, op ≠ .traced label) (budget : Nat) {p q : Rule Log}
    (hpq : (bracketing J base quiet i).Rules p q) :
    (bracketing J base quiet i).Rules (op.toRule note budget p)
      (Recasting.untraced.toRule budget op q) := by
  rcases Recasting.untraced_unary op with ⟨label, rfl⟩ | ⟨initial, rfl⟩ | hkept
  · exact absurd rfl (htraced label)
  · exact hpq
  · rw [Recasting.toRule, hkept]
    exact Rules.unary (bracketing_allows hhooked htraced) budget hpq

/-- **A traced rule beside its part.** The part is run from the stream where it is tried, inside one
more attempt; it ends at or behind that stream, and so the attempt is closed. -/
theorem bracketing_traced {label : Text} {p q : Rule Log}
    (hstart : ∀ s seen, i.low.LeadsTo s → J seen → openAfter seen = some i.attempts →
      J (seen ++ [.atStart label s]))
    (hfinish : ∀ r seen, J seen → J (seen ++ [.atEnd label r]))
    (hpq : ∀ s (hs : i.low.LeadsTo s), (bracketing J base quiet (i.inside label hs)).Rules p q) :
    (bracketing J base quiet i).Rules (Rule.traced note label p) q := by
  rintro s _ c _ ⟨rfl, hs⟩ rfl log quiet' ⟨hquiet, seen, hlog, hseen, hopen⟩
  -- with its entry noted, the part runs inside one more attempt
  have hopened :
      (bracketing J base quiet (i.inside label hs)).state (note (.atStart label s) log) quiet' := by
    refine ⟨hquiet, seen ++ [.atStart label s], ?_, hstart s seen hs hseen hopen,
      openAfter_concat hopen _⟩
    rw [note, Array.toList_push, hlog, List.append_assoc]
  have hend := hpq s hs ⟨rfl, (hs.inBounds i.inBounds).leadsTo_self⟩ (rfl : c = c) _ _ hopened
  rw [traced_apply]
  cases hleft : p s c (note (.atStart label s) log) with
  | mk a log₁ =>
    cases hright : q s c quiet' with
    | mk b quiet₁ =>
      rw [hleft, hright] at hend
      cases hend with
      | stopped he hstate => exact .stopped he hstate
      | @returned r _ _ _ hr hstate =>
        -- at the end of the part its attempt is the last one open, and the note closes it
        obtain ⟨rfl, ht⟩ := bracketing_results.mp hr
        obtain ⟨hquiet₁, seen₁, hlog₁, hseen₁, hopen₁⟩ := hstate
        refine .returned (bracketing_results.mpr ⟨rfl, hs.trans ht⟩)
          ⟨hquiet₁, seen₁ ++ [.atEnd label r], ?_, hfinish r seen₁ hseen₁, ?_⟩
        · rw [note, Array.toList_push, hlog₁, List.append_assoc]
        · rw [openAfter_concat hopen₁]
          exact Event.follow_atEnd ht.start_le i.attempts

/-- The recasting keeps whole grammars coupled, with no condition on the events. -/
theorem bracketing_recasts (base : List Event) (quiet : Log) :
    Recasts (bracketing (fun _ => True) base quiet) .untraced .library where
  lawful := Recasting.untraced_lawful _
  leaf _ _ hl := bracketing_leaf hl
  unary op hop budget p q hpq i := by
    by_cases htraced : ∃ label, op = .traced label
    · obtain ⟨label, rfl⟩ := htraced
      exact bracketing_traced (fun _ _ _ _ _ => trivial) (fun _ _ _ => trivial) fun s hs =>
        hpq (i.inside label hs)
    · exact bracketing_untraced hop (fun label h => htraced ⟨label, h⟩) budget (hpq i)
  fault _ _ _ := rfl
  output _ _ _ h := h.symm

/-- What the two ends of a run and of the untraced run have to do with each other. -/
theorem bracketing_end {x y : Except Stop Result × Log}
    (h : (bracketing J base quiet i).Ends (bracketing J base quiet i).Results x y) :
    y = (x.1, quiet) ∧ ∃ seen, x.2.toList = base ++ seen ∧ J seen ∧
      ∀ r, x.1 = .ok r → openAfter seen = some i.attempts := by
  cases h with
  | stopped he hstate =>
    obtain ⟨rfl, seen, hlog, hseen⟩ := hstate
    obtain rfl := he
    exact ⟨rfl, seen, hlog, hseen, fun r hr => nomatch hr⟩
  | returned hr hstate =>
    obtain ⟨rfl, -⟩ := bracketing_results.mp hr
    obtain ⟨rfl, seen, hlog, hseen, hopen⟩ := hstate
    exact ⟨rfl, seen, hlog, hseen, fun _ _ => hopen⟩

end Coupling

/-! ## Whole parsers -/

/-- **Traces are transparent and well nested.** Of a parser of library parts, started inside its
source in any context, the parser without its traces and default contexts ends with the same result,
or is stopped alike, and logs nothing. If the run returns, its log has grown by events in which
every attempt is closed: the last one first, under its own label, and at or behind the offset where
it was tried. -/
theorem Grammar.Over.traced_transparent {rules : Rules} (hrules : rules.Over .library) {g : Grammar}
    (hg : g.Over .library) {p : Parser Factory} (hp : g.check = .ok p) {s : Stream}
    (hs : s.InBounds) (c : Value) (budget : Nat) (log quiet : Log) :
    ∃ q, (g.recast .untraced).check = .ok q ∧
      q.direct (rules.recast .untraced) budget s c quiet =
        ((p.direct rules budget s c log).1, quiet) ∧
      ∀ r log', p.direct rules budget s c log = (.ok r, log') →
        ∃ events, log'.toList = log.toList ++ events ∧ openAfter events = some [] := by
  refine ⟨p.recast .untraced, ?_, ?_⟩
  · rw [hg.check_recast (Recasting.untraced_lawful _), hp]
    rfl
  · have hend :=
      (Coupling.bracketing_recasts log.toList quiet).direct hrules budget (hg.check hp) ⟨s, hs, []⟩
        ⟨rfl, hs.leadsTo_self⟩ (rfl : c = c) log quiet
        ⟨rfl, [], (List.append_nil _).symm, trivial, rfl⟩
    obtain ⟨hsame, events, hlog, -, hopen⟩ := Coupling.bracketing_end hend
    refine ⟨hsame, fun r log' hrun => ⟨events, ?_, hopen r ?_⟩⟩
    · rw [← hlog, hrun]
    · rw [hrun]

/-- A traced option that fails inside a traced choice, and a repetition whose last turn is
dropped. -/
theorem traced_transparent_dropped :
    let item : Grammar := .unary (.traced [105]) (.serial [.char 'a', .char 'b'])
    let g : Grammar := .unary (.context .null)
      (.unary (.traced [103]) (.choice [.serial [item, .char 'x'], .many0 item]))
    let s : Stream := ⟨⟨0, .text, #[97, 98, 97]⟩, 0⟩
    ∃ p q r log', g.check = .ok p ∧ (g.recast .untraced).check = .ok q ∧
      p.direct (fun _ => none) 4 s .emptyTable #[] = (.ok r, log') ∧
      q.direct (Rules.recast .untraced fun _ => none) 4 s .emptyTable #[] = (.ok r, #[]) ∧
      log'.size = 8 ∧ ∃ events, log'.toList = [] ++ events ∧ openAfter events = some [] := by
  intro item g s
  have hchar (c : Char) : (Grammar.char c).Over .library := .char fun _ => nofun
  have hpair {h h' : Grammar} (hh : h.Over .library) (hh' : h'.Over .library) :
      ∀ g ∈ [h, h'], g.Over .library :=
    List.forall_mem_cons.mpr ⟨hh, List.forall_mem_singleton.mpr hh'⟩
  have hitem : item.Over .library :=
    .unary (fun _ => nofun) (.serial (hpair (hchar 'a') (hchar 'b')))
  have hg : g.Over .library :=
    .unary (fun _ => nofun)
      (.unary (fun _ => nofun) (.choice (hpair (.serial (hpair hitem (hchar 'x')))
      (.unary (fun _ => nofun) hitem))))
  have hrules : Rules.Over .library fun _ => none :=
    ⟨fun _ _ => nofun, fun _ _ => nofun, fun _ _ => trivial⟩
  obtain ⟨q, hq, hsame, hlog⟩ :=
    hg.traced_transparent hrules rfl (s := s) ⟨by decide, by decide⟩ .emptyTable 4 #[] #[]
  exact ⟨_, q, _, _, rfl, hq, rfl, hsame, rfl, hlog _ _ rfl⟩

end Descent
