import Descent.Proofs.Chains

/-!
# Descent — repetitions up to another parser

A repetition may go on until another parser succeeds, which is tried in front of every item. Two
parsers are run from the same places in turns, but the places are those of one of them: the chain is
that of the part, and the other one only says how far it is followed.

* **`Parser.FailsAlong`** — the other parser fails at the first places of the chain.
* **`Parser.Reports`** — what is made of the place where it does not, or where the chain breaks.
* **`Parser.untilFrom_chain` / `Parser.Chain.untilFrom`** — the loop follows such a chain, and only
  such a chain.
* **`Parser.manyUntil_ends_iff`** — the statement about results.
-/

namespace Descent

/-- One turn of the loop that has another rule tried first. -/
theorem Rule.fst_untilFrom_succ {σ : Type} (p stop : Rule σ) (b : Nat) (w : Sweep) (u : σ) :
    (untilFrom p stop (b + 1) w u).1 =
      match (stop w.stream w.context u).1 with
      | .ok (.ok _ _ _) => .ok w.succeed
      | .ok (.err _ _ _) =>
        match (p w.stream w.context (stop w.stream w.context u).2).1 with
        | .ok (.ok s x c) =>
          (untilFrom p stop b (w.push s x c)
            (p w.stream w.context (stop w.stream w.context u).2).2).1
        | .ok (.err s e c) => .ok (.err s e c)
        | .error e => .error e
      | .error e => .error e := by
  rw [untilFrom, Run.fst_bind]
  rcases (stop w.stream w.context u).1 with _ | ⟨_ | _⟩
  · rfl
  · rfl
  · simp only [Run.fst_bind]
    rcases (p w.stream w.context (stop w.stream w.context u).2).1 with _ | ⟨_ | _⟩ <;> rfl

namespace Parser

variable {rules : Rules} {p stop : Parser Factory} {s t : Stream} {c d : Value} {xs : List Value}

/-! ## Places of a chain -/

/-- At the first `k` places of the chain, as far as it goes, `stop` fails. -/
def FailsAlong (rules : Rules) (stop p : Parser Factory) (k : Nat) (s : Stream) (c : Value) :
    Prop :=
  ∀ ys t d, p.Chain rules s c ys t d → ys.length < k → stop.Fails rules t d

/-- The first place is the start, and the others are those of the chain behind the first success. -/
theorem failsAlong_succ {k : Nat} {s' : Stream} {y c' : Value}
    (hfirst : p.Ends rules s c (.ok (.ok s' y c'))) :
    stop.FailsAlong rules p (k + 1) s c ↔ stop.Fails rules s c ∧
      stop.FailsAlong rules p k s' c' := by
  constructor
  · intro h
    refine ⟨h [] s c .nil (by simp), fun ys t d hchain hys => ?_⟩
    exact h (y :: ys) t d (.cons hfirst hchain) (by simpa using hys)
  · rintro ⟨hstart, hrest⟩ ys t d hchain hys
    cases ys with
    | nil =>
      cases hchain
      exact hstart
    | cons z ys => exact hrest ys t d (hchain.tail hfirst).2 (by simpa using hys)

/-- One more place is the one where the chain ends. -/
theorem Chain.failsAlong_iff (h : p.Chain rules s c xs t d) :
    stop.FailsAlong rules p (xs.length + 1) s c ↔ stop.FailsAlong rules p xs.length s c ∧
      stop.Fails rules t d := by
  constructor
  · intro hfails
    refine ⟨fun ys t' d' hchain hys => hfails ys t' d' hchain (by omega),
      hfails xs t d h (by omega)⟩
  · rintro ⟨hfails, hlast⟩ ys t' d' hchain hys
    rcases Nat.lt_or_eq_of_le (Nat.le_of_lt_succ hys) with hys | hys
    · exact hfails ys t' d' hchain hys
    · obtain ⟨_, rfl, rfl⟩ := h.unique hchain hys.symm
      exact hlast

/-- How a repetition up to `stop` ends that has followed a chain with `xs` to its end: there `stop`
succeeds, or it fails and the part fails too. -/
inductive Reports (rules : Rules) (p stop : Parser Factory) (xs : List Value) (t : Stream)
    (d : Value) : Result → Prop where
  | reached (h : stop.Succeeds rules t d) : Reports rules p stop xs t d (.ok t (.list xs) d)
  | broken {t' : Stream} {e d' : Value} (h : stop.Fails rules t d)
      (hp : p.Ends rules t d (.ok (.err t' e d'))) :
      Reports rules p stop xs t d (.err t' e d')

/-! ## The loop -/

/-- **The loop follows a chain on which `stop` fails.** -/
theorem untilFrom_chain {n b : Nat} {w : Rule.Sweep} {log : Log} {r : Result}
    (hrun : (Rule.untilFrom (p.direct rules n) (stop.direct rules n) b w log).1 = .ok r) :
    ∃ xs t d, p.Chain rules w.stream w.context xs t d ∧
      stop.FailsAlong rules p xs.length w.stream w.context ∧
      p.Reports rules stop (w.outputs ++ xs) t d r := by
  induction b generalizing w log with
  | zero => cases hrun
  | succ b ih =>
    have hnone : stop.FailsAlong rules p ([] : List Value).length w.stream w.context :=
      fun ys _ _ _ hys => absurd hys (Nat.not_lt_zero _)
    rw [Rule.fst_untilFrom_succ] at hrun
    cases hstop : (stop.direct rules n w.stream w.context log).1 with
    | error e => simp [hstop] at hrun
    | ok tried =>
      have hends := ends_of_direct hstop nofun
      cases tried with
      | ok t y d =>
        simp only [hstop] at hrun
        refine ⟨[], _, _, .nil, hnone, ?_⟩
        rw [← Except.ok.inj hrun, List.append_nil]
        exact .reached ⟨t, y, d, hends⟩
      | err t e d =>
        -- what `stop` did is dropped, and the part is run from the same place
        have hfails : stop.Fails rules w.stream w.context := ⟨t, e, d, hends⟩
        simp only [hstop] at hrun
        cases hattempt :
          (p.direct rules n w.stream w.context
          (stop.direct rules n w.stream w.context log).2).1 with
        | error e => simp [hattempt] at hrun
        | ok attempt =>
          have hends' := ends_of_direct hattempt nofun
          cases attempt with
          | err t' e' d' =>
            simp only [hattempt] at hrun
            refine ⟨[], _, _, .nil, hnone, ?_⟩
            rw [← Except.ok.inj hrun]
            exact .broken hfails hends'
          | ok t' y d' =>
            simp only [hattempt] at hrun
            obtain ⟨xs, t₁, d₁, hchain, halong, hreports⟩ := ih hrun
            refine ⟨y :: xs, t₁, d₁, .cons hends' hchain,
              (failsAlong_succ hends').mpr ⟨hfails, halong⟩, ?_⟩
            simpa [Rule.Sweep.outputs, Rule.Sweep.push] using hreports

/-- **A chain on which `stop` fails is followed to its end**, in one turn for each success and one
more. -/
theorem Chain.untilFrom (h : p.Chain rules s c xs t d)
    (halong : stop.FailsAlong rules p xs.length s c) (gathered : List Value) {r : Result}
    (hr : p.Reports rules stop (gathered.reverse ++ xs) t d r) :
    ∀ᶠ n in Filter.atTop, ∀ b, xs.length ≤ b → ∀ log,
      (Rule.untilFrom (p.direct rules n) (stop.direct rules n) (b + 1) ⟨gathered, s, c⟩ log).1 =
        .ok r := by
  induction h generalizing gathered with
  | nil =>
    -- the end is tried first: it is there, or it fails and so does the part
    rw [List.append_nil] at hr
    cases hr with
    | reached h =>
      obtain ⟨_, _, _, hends⟩ := h
      filter_upwards [hends.eventually] with n hrun b _ log
      rw [Rule.fst_untilFrom_succ, hrun]
      rfl
    | broken h hp =>
      obtain ⟨_, _, _, hends⟩ := h
      filter_upwards [hends.eventually, hp.eventually] with n hrun hrun' b _ log
      rw [Rule.fst_untilFrom_succ, hrun]
      simp only [hrun']
  | @cons s s' t c y c' d ys hfirst _ ih =>
    -- a turn in which the end fails and the part succeeds
    obtain ⟨⟨_, _, _, hends⟩, hrest⟩ := (failsAlong_succ hfirst).mp halong
    have hloop := ih hrest (y :: gathered) (by simpa using hr)
    filter_upwards [hends.eventually, hfirst.eventually, hloop] with n hrun hrun' hloop b hb log
    obtain ⟨b, rfl⟩ := Nat.exists_eq_add_of_le' (Nat.le_of_add_left_le hb)
    rw [Rule.fst_untilFrom_succ, hrun]
    simp only [hrun', Rule.Sweep.push]
    exact hloop b (by simpa using hb) _

/-- How a repetition up to another parser ends. -/
theorem ends_manyUntil {r : Result} : (Parser.binary .manyUntil p stop).Ends rules s c (.ok r) ↔
    ∃ xs t d, p.Chain rules s c xs t d ∧ stop.FailsAlong rules p xs.length s c ∧
      p.Reports rules stop xs t d r := by
  rw [ends_binary]
  constructor
  · rintro ⟨_, n, b, log, hrun⟩
    exact untilFrom_chain hrun
  · rintro ⟨xs, t, d, hchain, halong, hreports⟩
    obtain ⟨n, hrun⟩ := (hchain.untilFrom halong [] hreports).exists
    exact ⟨nofun, n, xs.length + 1, #[], hrun xs.length le_rfl #[]⟩

/-- **What a repetition up to another parser is.** It succeeds at a place of the chain of its part
if this is the first place where the other parser succeeds; its outputs are those of the chain up to
there, and stream and context are those of the chain at this place. It fails if the part fails at a
place and the other parser has failed up to there and there as well, and then with the very failure
of the part. So nothing is to be seen of what the other parser consumes or does to the context: the
chain is that of the part alone. -/
theorem manyUntil_ends_iff (rules : Rules) (p stop : Parser Factory) (s : Stream) (c : Value) :
    (∀ t v d, (Parser.binary .manyUntil p stop).Ends rules s c (.ok (.ok t v d)) ↔
      ∃ xs, v = .list xs ∧ p.Chain rules s c xs t d ∧ stop.Succeeds rules t d ∧
        stop.FailsAlong rules p xs.length s c) ∧
    ∀ t e d, (Parser.binary .manyUntil p stop).Ends rules s c (.ok (.err t e d)) ↔
      ∃ xs t' d', p.Chain rules s c xs t' d' ∧ p.Ends rules t' d' (.ok (.err t e d)) ∧
        stop.FailsAlong rules p (xs.length + 1) s c := by
  constructor
  · intro t v d
    rw [ends_manyUntil]
    constructor
    · rintro ⟨xs, t', d', hchain, halong, hreports⟩
      cases hreports with
      | reached h => exact ⟨xs, rfl, hchain, h, halong⟩
    · rintro ⟨xs, hv, hchain, h, halong⟩
      exact ⟨xs, t, d, hchain, halong, hv ▸ .reached h⟩
  · intro t e d
    rw [ends_manyUntil]
    constructor
    · rintro ⟨xs, t', d', hchain, halong, hreports⟩
      cases hreports with
      | broken h hp =>
        -- the end has also failed where the part failed, which is one place more
        exact ⟨xs, t', d', hchain, hp, hchain.failsAlong_iff.mpr ⟨halong, h⟩⟩
    · rintro ⟨xs, t', d', hchain, hp, halong⟩
      obtain ⟨halong, h⟩ := hchain.failsAlong_iff.mp halong
      exact ⟨xs, t', d', hchain, halong, .broken h hp⟩

/-- An end that consumes what it finds and changes the context, also where it fails: nothing of this
is to be seen. -/
example :
    let src : Source := ⟨0, .text, #[97, 98, 59]⟩
    let semicolon : Parser Factory := .leaf <| .custom fun s _ =>
      .ok (if s.rest.head? = some 59 then .ok (s.advance 1) .null (.int 1)
        else .err (s.advance 1) .null (.int 2))
    (Parser.binary .manyUntil (.leaf (.char .any)) semicolon).Ends (fun _ => none) ⟨src, 0⟩ .null
      (.ok (.ok ⟨src, 2⟩ (.list [.text [97], .text [98]]) .null)) :=
  ⟨nofun, 4, fun _ => rfl⟩

end Parser

end Descent
