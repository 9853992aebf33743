import Descent.Proofs.Defaults
import Descent.Proofs.Separated
import Mathlib.Data.ENat.Basic
import Mathlib.Order.Filter.AtTopBot.Basic

/-!
# Descent — chains of successes

A loop runs its part again and again, each time where the last success left off, and it is the chain
of these successes that its result is made of. A chain is a notion of its own, without the loop and
without budgets: it may be shorter than the loop makes it, and it can be cut at any place.

* **`Parser.ends_unary` / `Parser.ends_binary`** — the end of a loop, where the budget of the loop
  and that of its part are taken apart.
* **`Parser.Chain`** — the successes of a parser, each started where the one before it ended. From
  one place there is one chain of each length at most (`Parser.Chain.unique`), and it cannot be
  continued where the parser fails (`Parser.Chain.length_le`).
* **`Parser.Closes`** — why a loop goes no further than a chain: it is full, or the next attempt
  fails or is stopped.
* **`Parser.repeatFrom_chain` / `Parser.Chain.repeatFrom`** — the loop follows a chain up to where
  it closes, and there is no other way for it to end.
-/

namespace Descent

/-- A run with another behind it ends as the other does, if the first one returns. -/
theorem Run.fst_bind {σ α β : Type} (x : Run σ α) (f : α → Run σ β) (u : σ) :
    ((x >>= f) u).1 = match (x u).1 with
      | .ok a => (f a (x u).2).1
      | .error e => .error e := by
  rw [Run.bind_apply]
  rcases x u with ⟨_ | a, u'⟩ <;> rfl

namespace Parser

variable {rules : Rules} {p q : Parser Factory} {s t t' : Stream} {c d d' : Value}
  {x : Except Stop Result} {xs ys : List Value}

/-! ## Budgets taken apart -/

/-- Every budget from some point on tells the end. -/
theorem Ends.eventually (h : p.Ends rules s c x) :
    ∀ᶠ n in Filter.atTop, ∀ log, (p.direct rules n s c log).1 = x := by
  obtain ⟨hx, least, hrun⟩ := h
  filter_upwards [Filter.eventually_ge_atTop least] with n hn log
  have hsettled := p.direct_settled rules hn #[] log (by rwa [hrun])
  rwa [hrun] at hsettled

theorem direct_unary (rules : Rules) (op : Unary) (p : Parser Factory) (m : Nat) :
    (Parser.unary op p).direct rules (m + 1) =
      op.toRule (fun event log => log.push event) m (p.direct rules (m + 1)) :=
  rfl

theorem direct_binary (rules : Rules) (op : Binary) (p q : Parser Factory) (m : Nat) :
    (Parser.binary op p q).direct rules (m + 1) = op.toRule m (p.direct rules (m + 1))
      (q.direct rules (m + 1)) :=
  rfl

/-- The end of an operation on one parser. The loop may have any budget that is large enough, also
one that is larger than the part's by as much as we like. -/
theorem ends_unary (op : Unary) (extra : Nat) :
    (Parser.unary op p).Ends rules s c x ↔ x ≠ .error .exhausted ∧
      ∃ n b log,
        (op.toRule (fun event log => log.push event) (b + extra) (p.direct rules n) s c log).1 =
        x := by
  have hmono {n n' b b' : Nat} (hn : n ≤ n') (hb : b ≤ b') : (Pairing.settling Log).Rules
      (op.toRule (fun event log => log.push event) b (p.direct rules n))
      (op.toRule (fun event log => log.push event) b' (p.direct rules n')) := by
    refine (Pairing.settling_direct hn p).unary ?_ (Pairing.settling_budgets hb) op
    exact fun _ _ _ _ => rfl
  constructor
  · rintro ⟨hx, budget, hrun⟩
    cases budget with
    | zero => exact absurd (hrun #[]).symm hx
    | succ m =>
      rw [direct_unary] at hrun
      have hfound :=
        hmono (Nat.le_refl (m + 1)) (Nat.le_add_right m extra) s c #[] #[] (by rwa [hrun #[]])
      exact ⟨hx, m + 1, m, #[], hfound.trans (hrun #[])⟩
  · rintro ⟨hx, n, b, log, hrun⟩
    -- one budget for both, as a run has it
    have hn : n ≤ n + (b + extra) + 1 := by omega
    have hb : b + extra ≤ n + (b + extra) := by omega
    have hfound := hmono hn hb s c log log (by rwa [hrun])
    rw [← direct_unary, hrun] at hfound
    exact ends_of_direct hfound hx

/-- The end of an operation on two parsers. -/
theorem ends_binary (op : Binary) :
    (Parser.binary op p q).Ends rules s c x ↔ x ≠ .error .exhausted ∧
      ∃ n b log, (op.toRule b (p.direct rules n) (q.direct rules n) s c log).1 = x := by
  constructor
  · rintro ⟨hx, budget, hrun⟩
    cases budget with
    | zero => exact absurd (hrun #[]).symm hx
    | succ m => exact ⟨hx, m + 1, m, #[], hrun #[]⟩
  · rintro ⟨hx, n, b, log, hrun⟩
    have hn : n ≤ n + b + 1 := by omega
    have hb : b ≤ n + b := by omega
    have hmono : (Pairing.settling Log).Rules (op.toRule b (p.direct rules n) (q.direct rules n))
        (op.toRule (n + b) (p.direct rules (n + b + 1)) (q.direct rules (n + b + 1))) :=
      (Pairing.settling_direct hn p).binary (Pairing.settling_direct hn q)
        (Pairing.settling_budgets hb) op
    have hfound := hmono s c log log (by rwa [hrun])
    rw [← direct_binary, hrun] at hfound
    exact ends_of_direct hfound hx

/-! ## Chains -/

/-- The parser, run there, succeeds. -/
def Succeeds (rules : Rules) (p : Parser Factory) (s : Stream) (c : Value) : Prop :=
  ∃ t y d, p.Ends rules s c (.ok (.ok t y d))

/-- The parser, run there, fails. -/
def Fails (rules : Rules) (p : Parser Factory) (s : Stream) (c : Value) : Prop :=
  ∃ t e d, p.Ends rules s c (.ok (.err t e d))

/-- A run ends in one way. -/
theorem Fails.not_succeeds (h : p.Fails rules s c) : ¬ p.Succeeds rules s c := by
  obtain ⟨t, e, d, hfails⟩ := h
  rintro ⟨t', y, d', hsucceeds⟩
  cases hfails.unique hsucceeds

/-- Successes of a parser one behind the other, with their outputs and the place where the last one
ended. -/
inductive Chain (rules : Rules) (p : Parser Factory) :
    Stream → Value → List Value → Stream → Value → Prop where
  | nil {s : Stream} {c : Value} : Chain rules p s c [] s c
  | cons {s s' t : Stream} {c y c' d : Value} {ys : List Value}
      (hfirst : p.Ends rules s c (.ok (.ok s' y c')))
      (hrest : Chain rules p s' c' ys t d) : Chain rules p s c (y :: ys) t d

/-- A chain may go on where another one ended. -/
theorem Chain.append (h : p.Chain rules s c xs t d) (h' : p.Chain rules t d ys t' d') :
    p.Chain rules s c (xs ++ ys) t' d' := by
  induction h with
  | nil => exact h'
  | cons hfirst _ ih => exact .cons hfirst (ih h')

/-- A chain can be cut at any place. -/
theorem Chain.cut (h : p.Chain rules s c xs t d) (k : Nat) :
    ∃ t' d', p.Chain rules s c (xs.take k) t' d' ∧ p.Chain rules t' d' (xs.drop k) t d := by
  induction h generalizing k with
  | nil => exact ⟨_, _, by simpa using .nil, by simpa using .nil⟩
  | cons hfirst hrest ih =>
    cases k with
    | zero => exact ⟨_, _, .nil, .cons hfirst hrest⟩
    | succ k =>
      obtain ⟨t', d', hleft, hright⟩ := ih k
      exact ⟨t', d', .cons hfirst hleft, hright⟩

/-- A chain that begins with a known success goes on from there. -/
theorem Chain.tail {s' : Stream} {y c' : Value} (hfirst : p.Ends rules s c (.ok (.ok s' y c')))
    {z : Value} (h : p.Chain rules s c (z :: ys) t d) : z = y ∧ p.Chain rules s' c' ys t d := by
  cases h with
  | cons hfirst' hrest =>
    cases hfirst.unique hfirst'
    exact ⟨rfl, hrest⟩

/-- Nothing can be put behind a failure. -/
theorem Chain.eq_nil (h : p.Chain rules s c xs t d) (hfails : p.Fails rules s c) :
    xs = [] ∧ t = s ∧ d = c := by
  cases h with
  | nil => exact ⟨rfl, rfl, rfl⟩
  | cons hfirst _ => exact absurd ⟨_, _, _, hfirst⟩ hfails.not_succeeds

/-- No chain goes past the place where the parser fails. -/
theorem Chain.length_le (h : p.Chain rules s c xs t d) (hfails : p.Fails rules t d)
    (h' : p.Chain rules s c ys t' d') :
    ys.length ≤ xs.length := by
  induction h generalizing ys with
  | nil => simp [(h'.eq_nil hfails).1]
  | cons hfirst _ ih =>
    cases ys with
    | nil => simp
    | cons z ys => simpa using ih hfails (h'.tail hfirst).2

/-- Chains of one length are the same. -/
theorem Chain.unique (h : p.Chain rules s c xs t d) (h' : p.Chain rules s c ys t' d')
    (hlength : xs.length = ys.length) :
    xs = ys ∧ t = t' ∧ d = d' := by
  induction h generalizing ys with
  | nil =>
    obtain rfl := List.eq_nil_of_length_eq_zero hlength.symm
    cases h'
    exact ⟨rfl, rfl, rfl⟩
  | cons hfirst _ ih =>
    cases ys with
    | nil => simp at hlength
    | cons z ys =>
      obtain ⟨rfl, hrest⟩ := h'.tail hfirst
      obtain ⟨rfl, rfl, rfl⟩ := ih hrest (by simpa using hlength)
      exact ⟨rfl, rfl, rfl⟩

end Parser

/-! ## Room -/

namespace Count

/-- How many items a maximum admits: none if it is negative. -/
def room : Count → ℕ∞
  | finite n => (n.toNat : ℕ∞)
  | infinite => ⊤

/-- The count that a number, or infinity, is. -/
def ofENat : ℕ∞ → Count
  | ⊤ => infinite
  | (n : ℕ) => finite n

theorem room_ofENat (a : ℕ∞) : (ofENat a).room = a := by
  cases a with
  | top => rfl
  | coe n => simp [ofENat, room]

/-- A minimum of zero asks for nothing. -/
theorem isReachedBy_zero (n : Nat) : (finite 0).isReachedBy n = true := by
  simp [isReachedBy, le]

/-- A count is reached by as many turns as it says, and infinity by none. -/
theorem isReachedBy_ofENat {a : ℕ∞} {n : Nat} : (ofENat a).isReachedBy n = true ↔ a ≤ n := by
  cases a with
  | top =>
    show false = true ↔ _
    simp
  | coe m => simp [ofENat, isReachedBy, le]

theorem isPositive_iff {most : Count} : most.isPositive = true ↔ 0 < most.room := by
  cases most with
  | infinite => simp [isPositive, room]
  | finite n => simp [isPositive, room]

/-- Where a count is positive, a turn takes one from the room. -/
theorem room_of_isPositive {most : Count} (h : most.isPositive = true) :
    most.room = most.pred.room + 1 := by
  cases most with
  | infinite => rfl
  | finite n =>
    have hn : n.toNat = (n - 1).toNat + 1 := by
      simp [isPositive] at h
      omega
    show (n.toNat : ℕ∞) = ((n - 1).toNat : ℕ∞) + 1
    rw [hn, Nat.cast_add_one]

end Count

/-! ## Loops

A loop that has followed a chain goes no further for one of three reasons, and each of them tells
how it ends. -/

/-- One turn of the plain loop. -/
theorem Rule.fst_repeatFrom_succ {σ : Type} (p : Rule σ) (b : Nat) (most : Count) (w : Sweep)
    (u : σ) :
    (repeatFrom p (b + 1) most w u).1 =
      if most.isPositive then
        match (p w.stream w.context u).1 with
        | .ok (.ok s x c) => (repeatFrom p b most.pred (w.push s x c) (p w.stream w.context u).2).1
        | .ok (.err _ _ _) => .ok w
        | .error e => .error e
      else .ok w := by
  rw [repeatFrom]
  split
  · rw [Run.fst_bind]
    rcases (p w.stream w.context u).1 with _ | ⟨_ | _⟩ <;> rfl
  · rfl

namespace Parser

variable {rules : Rules} {p : Parser Factory} {s t : Stream} {c d : Value} {xs : List Value}

/-- Why a loop that admits `room` items goes no further than `k` of them. If the next attempt is
stopped, so is the loop. -/
inductive Closes (rules : Rules) (p : Parser Factory) (room : ℕ∞) (k : Nat) (t : Stream)
    (d : Value) :
    Option Stop → Prop where
  | full (hroom : (k : ℕ∞) = room) : Closes rules p room k t d none
  | failed (hroom : (k : ℕ∞) < room) (h : p.Fails rules t d) : Closes rules p room k t d none
  | stopped {e : Stop} (hroom : (k : ℕ∞) < room) (h : p.Ends rules t d (.error e)) :
      Closes rules p room k t d (some e)

/-- Another number of items, with as much room left behind it. -/
theorem Closes.shift {room room' : ℕ∞} {k k' : Nat} {o : Option Stop}
    (h : p.Closes rules room k t d o) (heq : (k : ℕ∞) = room → (k' : ℕ∞) = room')
    (hlt : (k : ℕ∞) < room → (k' : ℕ∞) < room') :
    p.Closes rules room' k' t d o := by
  cases h with
  | full hroom => exact .full (heq hroom)
  | failed hroom h => exact .failed (hlt hroom) h
  | stopped hroom h => exact .stopped (hlt hroom) h

/-- More items, and as much more room. -/
theorem closes_add {room : ℕ∞} {j k : Nat} {o : Option Stop} :
    p.Closes rules (j + room) (j + k) t d o ↔ p.Closes rules room k t d o := by
  have heq : ((j + k : Nat) : ℕ∞) = j + room ↔ (k : ℕ∞) = room := by
    rw [Nat.cast_add, (ENat.add_right_injective_of_ne_top (ENat.natCast_ne_top j)).eq_iff]
  have hlt : ((j + k : Nat) : ℕ∞) < j + room ↔ (k : ℕ∞) < room := by
    rw [Nat.cast_add, ENat.add_lt_add_iff_left (ENat.natCast_ne_top j)]
  exact ⟨fun h => h.shift heq.mp hlt.mp, fun h => h.shift heq.mpr hlt.mpr⟩

/-- One more item, and room for one more. -/
theorem closes_succ {room : ℕ∞} {k : Nat} {o : Option Stop} :
    p.Closes rules (room + 1) (k + 1) t d o ↔ p.Closes rules room k t d o := by
  rw [add_comm room, Nat.add_comm k]
  exact closes_add

/-- Wherever a loop closes, it has taken no more turns than there is room for. -/
theorem Closes.le_room {room : ℕ∞} {k : Nat} {o : Option Stop} (h : p.Closes rules room k t d o) :
    (k : ℕ∞) ≤ room := by
  cases h with
  | full hroom => exact hroom.le
  | failed hroom _ => exact hroom.le
  | stopped hroom _ => exact hroom.le

/-- How a loop ends that has something to return, unless it is stopped. -/
def closing {α : Type} (a : α) : Option Stop → Except Stop α
  | none => .ok a
  | some e => .error e

theorem closing_map {α β : Type} (f : α → β) (a : α) (o : Option Stop) :
    (closing a o).map f = closing (f a) o := by
  cases o <;> rfl

/-- **What a loop does is follow a chain.** Unless it is exhausted, it ends where a chain closes. -/
theorem repeatFrom_chain {n b : Nat} {most : Count} {w : Rule.Sweep} {log : Log}
    {y : Except Stop Rule.Sweep} (hrun : (Rule.repeatFrom (p.direct rules n) b most w log).1 = y)
    (hy : y ≠ .error .exhausted) :
    ∃ xs t d o, p.Chain rules w.stream w.context xs t d ∧ p.Closes rules most.room xs.length t d o ∧
      y = closing ⟨xs.reverse ++ w.gathered, t, d⟩ o := by
  induction b generalizing most w log with
  | zero => exact absurd hrun.symm hy
  | succ b ih =>
    rw [Rule.fst_repeatFrom_succ] at hrun
    split at hrun
    next hmost =>
      have hroom : ((0 : Nat) : ℕ∞) < most.room := Count.isPositive_iff.mp hmost
      -- an attempt that is not exhausted tells the end of the part, so it is a link of the chain or
      -- closes it
      cases hattempt : (p.direct rules n w.stream w.context log).1 with
      | error e =>
        simp only [hattempt] at hrun
        subst hrun
        have hends :=
          ends_of_direct hattempt fun h => hy (congrArg Except.error (Except.error.inj h))
        exact ⟨[], _, _, some e, .nil, .stopped hroom hends, rfl⟩
      | ok attempt =>
        have hends := ends_of_direct hattempt nofun
        cases attempt with
        | err t e d =>
          simp only [hattempt] at hrun
          exact ⟨[], _, _, none, .nil, .failed hroom ⟨t, e, d, hends⟩, hrun.symm⟩
        | ok t z d =>
          simp only [hattempt] at hrun
          obtain ⟨zs, t', d', o, hchain, hcloses, rfl⟩ := ih hrun
          refine ⟨z :: zs, t', d', o, .cons hends hchain, ?_, by simp [Rule.Sweep.push]⟩
          rw [Count.room_of_isPositive hmost]
          exact closes_succ.mpr hcloses
    next hmost =>
      have hroom : ((0 : Nat) : ℕ∞) = most.room := by
        rw [Count.isPositive_iff, not_lt, nonpos_iff_eq_zero] at hmost
        exact hmost.symm
      exact ⟨[], _, _, none, .nil, .full hroom, hrun.symm⟩

/-- **A chain that closes is followed to its end.** The loop takes one turn for each success, and
one to close. -/
theorem Chain.repeatFrom (h : p.Chain rules s c xs t d) {most : Count} {o : Option Stop}
    (hcloses : p.Closes rules most.room xs.length t d o) :
    ∀ᶠ n in Filter.atTop, ∀ b, xs.length ≤ b → ∀ gathered log,
      (Rule.repeatFrom (p.direct rules n) (b + 1) most ⟨gathered, s, c⟩ log).1 =
        closing ⟨xs.reverse ++ gathered, t, d⟩ o := by
  induction h generalizing most with
  | nil =>
    -- the chain is at its end, and the loop ends here for the reason why the chain closes
    cases hcloses with
    | full hroom =>
      have hmost : ¬ most.isPositive = true := by
        rw [Count.isPositive_iff, ← hroom]
        simp
      refine .of_forall fun n b _ gathered log => ?_
      rw [Rule.fst_repeatFrom_succ, if_neg hmost]
      rfl
    | failed hroom h =>
      obtain ⟨t', e, d', hends⟩ := h
      filter_upwards [hends.eventually] with n hrun b _ gathered log
      rw [Rule.fst_repeatFrom_succ, if_pos (Count.isPositive_iff.mpr hroom), hrun]
      rfl
    | stopped hroom h =>
      filter_upwards [h.eventually] with n hrun b _ gathered log
      rw [Rule.fst_repeatFrom_succ, if_pos (Count.isPositive_iff.mpr hroom), hrun]
      rfl
  | @cons s s' t c y c' d ys hfirst _ ih =>
    -- one turn: it takes one from the maximum and one from the loop's own budget
    have hmost : most.isPositive = true := by
      refine Count.isPositive_iff.mpr (lt_of_lt_of_le ?_ hcloses.le_room)
      simp
    rw [Count.room_of_isPositive hmost] at hcloses
    filter_upwards [hfirst.eventually, ih (closes_succ.mp hcloses)] with n hrun hrest b
      hb gathered log
    obtain ⟨b, rfl⟩ := Nat.exists_eq_add_of_le' (Nat.le_of_add_left_le hb)
    rw [Rule.fst_repeatFrom_succ, if_pos hmost, hrun]
    simp only [Rule.Sweep.push]
    rw [hrest b (by simpa using hb)]
    simp

end Parser

end Descent
