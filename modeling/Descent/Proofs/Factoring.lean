import Descent.Proofs.Alternatives
import Descent.Proofs.Chains
import Descent.Proofs.Sequencing
import Descent.Proofs.Sessions

/-!
# Descent — left factoring

If all alternatives of a choice begin with the same part, this part can be run once, in front of a
choice of what comes behind it. On one side a failed alternative is given up as a whole, and the
common part is run again from the start; on the other it is run once, and only what comes behind it
is given up. So the result is the same if the common part does the same each time, whatever the
attempts before have left behind: events in the log, or deferred parsers that by now are built.

* **`Rule.Steady`** — a rule whose end does not depend on the state, as long as the state keeps an
  invariant.
* **`Rule.shadow`** — such a rule without the state. There, a rule that is run twice does the same
  twice, and the two sides are equal (`Rule.choice_serial`).
* **`Parser.steady_direct` / `Parser.steady_inSession`** — parsers are steady, in direct runs and in
  sessions.
* **`Parser.left_factoring`** — the statement for parsers.
-/

namespace Descent

/-! ## Rules without a state -/

namespace Rule

/-- A rule that begins both of two alternatives can be run once. The second time it ends as it did
the first time, since there is nothing that could have changed. -/
theorem bind_orElse_bind (a : Rule Unit) (f g : Value → Rule Unit) :
    (a.bind f).orElse (a.bind g) = a.bind fun x => (f x).orElse (g x) := by
  funext s c u
  have hagain (v : Unit) : a s c v = a s c u := rfl
  simp only [orElse_apply, bind_apply, hagain]
  rcases a s c u with ⟨_ | ⟨t, x, d⟩ | ⟨t, e, d⟩, v⟩
  · rfl
  · rfl
  · rfl

/-- What is made of an output is made of that of either alternative. -/
theorem orElse_bind_succeed {σ : Type} (p q : Rule σ) (g : Value → Value) :
    (p.orElse q).bind (fun x => succeed (g x)) =
      (p.bind fun x => succeed (g x)).orElse (q.bind fun x => succeed (g x)) := by
  funext s c u
  simp only [orElse_apply, bind_apply]
  rcases p s c u with ⟨_ | ⟨t, x, d⟩ | ⟨t, e, d⟩, v⟩
  · rfl
  · rfl
  · rfl

/-- A series of two, by its bindings. -/
theorem serial_pair {σ : Type} (p q : Rule σ) :
    serial [p, q] = p.bind fun x => q.bind fun y => succeed (.tuple [x, y]) :=
  serial_eq_inOrder [p, q]

/-- A common first part may be taken out of two alternatives, as it does the same both times. -/
theorem orElse_serial (a p q : Rule Unit) :
    (serial [a, p]).orElse (serial [a, q]) = serial [a, p.orElse q] := by
  simp only [serial_pair, bind_orElse_bind, orElse_bind_succeed]

/-- A common first part may be taken out of a whole choice. -/
theorem choice_serial (a b : Rule Unit) (bs : List (Rule Unit)) :
    choice (serial [a, b]) (bs.map fun q => serial [a, q]) = serial [a, choice b bs] := by
  induction bs generalizing b with
  | nil => rfl
  | cons q qs ih => rw [List.map_cons, choice_cons, ih, orElse_serial, choice_cons]

/-! ## Rules that are steady -/

variable {σ : Type} {I : σ → Prop}

/-- From any two states with the invariant the rule ends alike, and it keeps the invariant. -/
def Steady (I : σ → Prop) (p : Rule σ) : Prop :=
  ∀ s c u v, I u → I v → (p s c u).1 = (p s c v).1 ∧ I (p s c u).2

/-- What the rule does in one state, as a rule without a state. -/
def shadow (u : σ) (p : Rule σ) : Rule Unit :=
  fun s c _ => ((p s c u).1, ())

end Rule

/-- A run beside one without a state, which ends alike in whatever state with the invariant it is
made. -/
def Pairing.shadowing {σ : Type} (I : σ → Prop) : Pairing σ Unit where
  rel x y := ∀ u, I u → (x u).1 = (y ()).1 ∧ I (x u).2
  pure _ _ hu := ⟨rfl, hu⟩
  stop _ _ hu := ⟨rfl, hu⟩
  bind {α β x y f g} hxy hfg := by
    intro u hu
    obtain ⟨hfirst, hv⟩ := hxy u hu
    rw [Run.bind_apply, Run.bind_apply]
    rcases hx : x u with ⟨a, v⟩
    rcases hy : y () with ⟨b, w⟩
    rw [hx] at hv
    rw [hx, hy] at hfirst
    obtain rfl : a = b := hfirst
    cases a with
    | error e => exact ⟨rfl, hv⟩
    | ok a => exact hfg a v hv

/-- A steady rule beside its shadow. -/
theorem Rule.Steady.shadowing {σ : Type} {I : σ → Prop} {p : Rule σ} (hp : p.Steady I) {u : σ}
    (hu : I u) :
    (Pairing.shadowing I).Rules p (p.shadow u) :=
  fun s c v hv => ⟨(hp s c v u hv hu).1, (hp s c v u hv hu).2⟩

/-- **A steady part can be run again.** -/
theorem Rule.Steady.fst_choice_serial {σ : Type} {I : σ → Prop} {a b : Rule σ} {bs : List (Rule σ)}
    (h : ∀ p ∈ a :: b :: bs, p.Steady I) (s : Stream) (c : Value) {u v : σ} (hu : I u) (hv : I v) :
    (Rule.choice (Rule.serial [a, b]) (bs.map fun q => Rule.serial [a, q]) s c u).1 =
      (Rule.serial [a, Rule.choice b bs] s c v).1 := by
  -- every part does what its shadow does, and the shadows have no state
  have hshadow (p : Rule σ) (hp : p ∈ a :: b :: bs) : (Pairing.shadowing I).Rules p (p.shadow u) :=
    (h p hp).shadowing hu
  have hserial {p q : Rule σ} {p' q' : Rule Unit} (hp : (Pairing.shadowing I).Rules p p')
      (hq : (Pairing.shadowing I).Rules q q') :
      (Pairing.shadowing I).Rules (Rule.serial [p, q]) (Rule.serial [p', q']) :=
    Pairing.Rules.serialOnto (.cons hp (.cons hq .nil)) []
  have ha := hshadow a (by simp)
  have hb := hshadow b (by simp)
  have hbs : List.Forall₂ (Pairing.shadowing I).Rules bs (bs.map (Rule.shadow u)) := by
    rw [List.forall₂_map_right_iff, List.forall₂_same]
    exact fun q hq => hshadow q (by simp [hq])
  have hbranches : List.Forall₂ (Pairing.shadowing I).Rules (bs.map fun q => Rule.serial [a, q])
      ((bs.map (Rule.shadow u)).map fun q => Rule.serial [a.shadow u, q]) := by
    rw [List.forall₂_map_left_iff, List.forall₂_map_right_iff]
    exact hbs.imp fun q q' hq => hserial ha hq
  have hleft := ((hserial ha hb).choice hbranches s c u hu).1
  have hright := (hserial ha (hb.choice hbs) s c v hv).1
  rw [hleft, hright, Rule.choice_serial]

/-! ## Parsers -/

namespace Parser

/-- Alternatives that begin with a common part. -/
def branched {δ : Type} (a b : Parser δ) (bs : List (Parser δ)) : Parser δ :=
  .choice (.serial [a, b]) (bs.map fun q => .serial [a, q])

/-- The common part in front of a choice of what comes behind it. -/
def factored {δ : Type} (a b : Parser δ) (bs : List (Parser δ)) : Parser δ :=
  .serial [a, .choice b bs]

/-- The two forms give the same result, whatever states they are run in. -/
theorem fst_branched {σ δ : Type} {I : σ → Prop} {host : Host σ δ} {budget : Nat} {a b : Parser δ}
    {bs : List (Parser δ)} (h : ∀ p ∈ a :: b :: bs, (p.toRule host budget).Steady I) (s : Stream)
    (c : Value) {u v : σ} (hu : I u) (hv : I v) :
    ((branched a b bs).toRule host budget s c u).1 =
      ((factored a b bs).toRule host budget s c v).1 := by
  have hsteady : ∀ p ∈ (a :: b :: bs).map (·.toRule host budget), p.Steady I :=
    List.forall_mem_map.mpr h
  have hend := Rule.Steady.fst_choice_serial hsteady s c hu hv
  simpa [branched, factored, toRule, toRules, toRules_eq_map, Function.comp_def] using hend

variable {rules : Rules} {p q a b : Parser Factory} {bs : List (Parser Factory)} {s t : Stream}
  {c e d : Value}

/-- What was logged before makes no difference to the end of a direct run, also if it is
exhausted. -/
theorem steady_direct (rules : Rules) (budget : Nat) (p : Parser Factory) :
    (p.direct rules budget).Steady fun _ => True := by
  intro s c log log' _ _
  refine ⟨?_, trivial⟩
  by_cases hend : (p.direct rules budget s c log).1 = .error .exhausted
  · by_contra hne
    have hend' : (p.direct rules budget s c log').1 ≠ .error .exhausted :=
      fun h => hne (hend.trans h.symm)
    exact hne (p.direct_settled rules (Nat.le_refl budget) log' log hend')
  · exact (p.direct_settled rules (Nat.le_refl budget) log log' hend).symm

/-- In a session, the cells that are filled by now make no difference either. -/
theorem steady_inSession {cells : Array Cell} {q : Parser Nat} (hq : p.PlacedIn cells q)
    (rules : Rules) (budget : Nat) :
    (q.inSession rules budget).Steady fun m => m.Sound rules ∧ Cell.Persist cells m.cells := by
  intro s c m m' hm hm'
  have hrun (m : Memory) (hm : m.Sound rules ∧ Cell.Persist cells m.cells) :=
    Coupling.recalling_end
      (Coupling.Rules.inSession (s := s) (c := c) budget hq rfl rfl m m.log ⟨rfl, hm.1, hm.2⟩)
  refine ⟨?_, (hrun m hm).2.sound, (hrun m hm).2.persist⟩
  rw [(hrun m hm).1, (hrun m' hm').1]
  exact (steady_direct rules budget p s c m.log m'.log trivial trivial).1

/-! ## Failures -/

/-- Two alternatives fail if the first one fails and the second one does, with the failure of the
second. -/
theorem ends_orElse_err : (Parser.binary .orElse p q).Ends rules s c (.ok (.err t e d)) ↔
    p.Fails rules s c ∧ q.Ends rules s c (.ok (.err t e d)) := by
  rw [ends_binary]
  constructor
  · rintro ⟨_, n, b, log, hrun⟩
    simp only [Binary.toRule, Rule.orElse, Run.fst_bind] at hrun
    cases hp : (p.direct rules n s c log).1 with
    | error stop => simp [hp] at hrun
    | ok attempt =>
      cases attempt with
      | ok t' x d' =>
        simp only [hp] at hrun
        cases hrun
      | err t' e' d' =>
        simp only [hp] at hrun
        exact ⟨⟨t', e', d', ends_of_direct hp nofun⟩, ends_of_direct hrun nofun⟩
  · rintro ⟨⟨t', e', d', hp⟩, hq⟩
    -- one budget that is large enough for both alternatives
    obtain ⟨n, hp, hq⟩ := (hp.eventually.and hq.eventually).exists
    refine ⟨nofun, n, n, #[], ?_⟩
    simp only [Binary.toRule, Rule.orElse, Run.fst_bind, hp, hq]

/-- Two parsers in order fail if the first one fails, or if it succeeds and the second one fails
where it left off. -/
theorem ends_both_err : (Parser.binary .both p q).Ends rules s c (.ok (.err t e d)) ↔
    p.Ends rules s c (.ok (.err t e d)) ∨
      ∃ t' x d', p.Ends rules s c (.ok (.ok t' x d')) ∧ q.Ends rules t' d' (.ok (.err t e d)) := by
  rw [ends_binary]
  constructor
  · -- a run with some budget tells which part has failed
    rintro ⟨_, n, b, log, hrun⟩
    simp only [Binary.toRule, Rule.both, Run.fst_bind] at hrun
    cases hp : (p.direct rules n s c log).1 with
    | error stop => simp [hp] at hrun
    | ok attempt =>
      simp only [hp] at hrun
      cases attempt with
      | err t' e' d' =>
        cases hrun
        exact .inl (ends_of_direct hp nofun)
      | ok t' x d' =>
        simp only [Run.fst_bind] at hrun
        cases hq : (q.direct rules n t' d' (p.direct rules n s c log).2).1 with
        | error stop => simp [hq] at hrun
        | ok attempt' =>
          simp only [hq] at hrun
          cases attempt' with
          | ok t₁ y d₁ => cases hrun
          | err t₁ e₁ d₁ =>
            cases hrun
            exact .inr ⟨t', x, d', ends_of_direct hp nofun, ends_of_direct hq nofun⟩
  · rintro (hp | ⟨t', x, d', hp, hq⟩)
    · obtain ⟨n, hp⟩ := hp.eventually.exists
      refine ⟨nofun, n, n, #[], ?_⟩
      simp only [Binary.toRule, Rule.both, Run.fst_bind, hp]
      rfl
    · -- one budget that is large enough for both parts
      obtain ⟨n, hp, hq⟩ := (hp.eventually.and hq.eventually).exists
      refine ⟨nofun, n, n, #[], ?_⟩
      simp only [Binary.toRule, Rule.both, Run.fst_bind, hp, hq]
      rfl

/-- Parsers with the same direct runs have the same ends. -/
theorem ends_congr (h : ∀ budget, p.direct rules budget = q.direct rules budget)
    {x : Except Stop Result} :
    p.Ends rules s c x ↔ q.Ends rules s c x := by
  simp only [Ends, h]

/-- Alternatives fail if all of them do, with the failure of the last. -/
theorem ends_choice_err : (Parser.choice b bs).Ends rules s c (.ok (.err t e d)) ↔
    (∀ q ∈ b :: bs, q.Fails rules s c) ∧
      ((b :: bs).getLast (List.cons_ne_nil b bs)).Ends rules s c (.ok (.err t e d)) := by
  induction bs generalizing b with
  | nil =>
    have hone : (Parser.choice b []).Ends rules s c (.ok (.err t e d)) ↔
        b.Ends rules s c (.ok (.err t e d)) :=
      ends_congr fun budget => by cases budget <;> rfl
    rw [hone, List.getLast_singleton, List.forall_mem_singleton]
    exact ⟨fun h => ⟨⟨t, e, d, h⟩, h⟩, And.right⟩
  | cons q qs ih =>
    have hmore : (Parser.choice b (q :: qs)).Ends rules s c (.ok (.err t e d)) ↔
        (Parser.binary .orElse b (.choice q qs)).Ends rules s c (.ok (.err t e d)) :=
      ends_congr fun budget => by cases budget <;> rfl
    simp only [hmore, ends_orElse_err, ih, List.forall_mem_cons,
      List.getLast_cons (List.cons_ne_nil q qs), and_assoc]

/-- The factored form fails where its first part does, or behind it with the error of the last
branch. -/
theorem ends_factored_err : (factored a b bs).Ends rules s c (.ok (.err t e d)) ↔
    a.Ends rules s c (.ok (.err t e d)) ∨
      ∃ t' x d', a.Ends rules s c (.ok (.ok t' x d')) ∧ (∀ q ∈ b :: bs, q.Fails rules t' d') ∧
        ((b :: bs).getLast (List.cons_ne_nil b bs)).Ends rules t' d' (.ok (.err t e d)) := by
  have hboth : (factored a b bs).Ends rules s c (.ok (.err t e d)) ↔
      (Parser.binary .both a (.choice b bs)).Ends rules s c (.ok (.err t e d)) := by
    refine ends_congr fun budget => ?_
    cases budget with
    | zero => rfl
    | succ budget => exact (Rule.serial_eq_inOrder _).trans (Rule.both_eq_inOrder _ _).symm
  simp only [hboth, ends_both_err, ends_choice_err]

/-- **Left factoring.** Alternatives that begin with a common part are the common part in front of a
choice of what comes behind it. In direct runs the two have the same ends: the same output, stream
and context if they succeed, the same stop if they are stopped; and they fail if the common part
fails, with its failure, or if it succeeds and all that may come behind it fails where it left off,
with the failure of the last. In a session the very same parts may be used on both sides, and again
each time. Whatever deferred parsers the one memory or the other holds already, the two sides end
alike. -/
theorem left_factoring (rules : Rules) (s : Stream) (c : Value) :
    (∀ (a b : Parser Factory) (bs : List (Parser Factory)),
      (∀ x, (branched a b bs).Ends rules s c x ↔ (factored a b bs).Ends rules s c x) ∧
      ∀ t e d, (factored a b bs).Ends rules s c (.ok (.err t e d)) ↔
        a.Ends rules s c (.ok (.err t e d)) ∨
          ∃ t' x d', a.Ends rules s c (.ok (.ok t' x d')) ∧ (∀ q ∈ b :: bs, q.Fails rules t' d') ∧
            ((b :: bs).getLast (List.cons_ne_nil b bs)).Ends rules t' d' (.ok (.err t e d))) ∧
    ∀ (cells : Array Cell) (a b : Parser Nat) (bs : List (Parser Nat)),
      (∀ q ∈ a :: b :: bs, ∃ p : Parser Factory, p.PlacedIn cells q) →
      ∀ m m' : Memory, m.Sound rules ∧ Cell.Persist cells m.cells →
        m'.Sound rules ∧ Cell.Persist cells m'.cells →
        ∀ budget, ((branched a b bs).inSession rules budget s c m).1 =
          ((factored a b bs).inSession rules budget s c m').1 := by
  constructor
  · intro a b bs
    refine ⟨fun x => ?_, fun t e d => ends_factored_err⟩
    -- a direct run only adds to its log, so the common part may be run again
    have hrun (budget : Nat) (log : Log) :
        ((branched a b bs).direct rules budget s c log).1 =
          ((factored a b bs).direct rules budget s c log).1 := by
      cases budget with
      | zero => rfl
      | succ budget =>
        exact fst_branched (fun p _ => steady_direct rules (budget + 1) p) s c trivial trivial
    simp only [Ends, hrun]
  · intro cells a b bs hplaced m m' hm hm' budget
    cases budget with
    | zero => rfl
    | succ budget =>
      -- a session may fill cells meanwhile, which no run can tell
      have hsteady : ∀ q ∈ a :: b :: bs, (q.inSession rules (budget + 1)).Steady
          fun m => m.Sound rules ∧ Cell.Persist cells m.cells := by
        intro q hq
        obtain ⟨p, hp⟩ := hplaced q hq
        exact steady_inSession hp rules (budget + 1)
      exact fst_branched hsteady s c hm hm'

end Parser

/-- A deferred character in front of two others, on the text `ac`: in one memory its cell is empty,
in the other it has been filled. Both sides find the last of the three behind the first. -/
theorem left_factoring_deferred :
    let factory : Factory := .grammar (.leaf (.char .any))
    let letter (u : Nat) : Parser Nat := .leaf (.char (.exactly u))
    let m : Memory := { cells := #[{ factory }] }
    let m' : Memory := m.fill 0 (.leaf (.char .any))
    let src : Source := ⟨0, .text, #[97, 99]⟩
    ∀ n ∈ [m, m'],
      ((Parser.branched (.deferred 0) (letter 98) [letter 99]).inSession (fun _ => none) 2
        ⟨src, 0⟩ .null n).1 = .ok (.ok ⟨src, 2⟩ (.tuple [.text [97], .text [99]]) .null) := by
  intro factory letter m m' src n hn
  have hletter (u : Nat) :
      (Parser.leaf (.char (.exactly u)) : Parser Factory).PlacedIn m.cells (letter u) :=
    ⟨#[], rfl, fun _ _ h => nomatch h⟩
  have hplaced :
      ∀ q ∈ [.deferred 0, letter 98, letter 99], ∃ p : Parser Factory, p.PlacedIn m.cells q := by
    simp only [List.forall_mem_cons]
    exact ⟨⟨.deferred factory, #[], rfl, .refl _⟩, ⟨_, hletter 98⟩, ⟨_, hletter 99⟩, nofun⟩
  have hsound : m.Sound fun _ => none := by
    intro id factory' q hid
    have hempty := Array.mem_of_getElem? hid
    simp [m] at hempty
  have hfilled : m.Later (fun _ => none) m' :=
    hsound.fill rfl rfl (p := .leaf (.char .any)) ⟨#[], rfl, fun _ _ h => nomatch h⟩
  have hmemory : n.Sound (fun _ => none) ∧ Cell.Persist m.cells n.cells := by
    rcases List.mem_pair.mp hn with rfl | rfl
    · exact ⟨hsound, .refl _⟩
    · exact ⟨hfilled.sound, hfilled.persist⟩
  have hsame := (Parser.left_factoring (fun _ => none) ⟨src, 0⟩ .null).2 m.cells (.deferred 0)
    (letter 98) [letter 99] hplaced n m hmemory ⟨hsound, .refl _⟩ 2
  rw [hsame]
  rfl

end Descent
