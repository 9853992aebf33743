import Descent.Proofs.Chains

/-!
# Descent — what a repetition is

A repetition is told by the chain of successes of its part: how long this chain can be made within
the maximum, and what comes then. So it has a meaning without the loop, and facts about repetitions
are facts about chains.

* **`Parser.ends_many`** — how a repetition ends, by chains alone.
* **`Parser.Gathers`** — the chain of a repetition that returns. It is the longest one that the
  maximum admits, and either it is full or the part fails where it ends (`Parser.gathers_iff`).
* **`Parser.gathers_add`** — a chain within the sum of two maxima is one chain behind the other.
* **`Parser.many_ends_iff` / `Parser.many_add`** — the statements about repetitions.
-/

namespace Descent.Parser

variable {rules : Rules} {p : Parser Factory} {s t t' : Stream} {c d d' : Value}
  {xs ys : List Value}

/-! ## Between a minimum and a maximum -/

/-- The chain of a repetition that admits `room` items and returns. -/
structure Gathers (rules : Rules) (p : Parser Factory) (room : ℕ∞) (s : Stream) (c : Value)
    (xs : List Value) (t : Stream) (d : Value) : Prop where
  chain : p.Chain rules s c xs t d
  closes : p.Closes rules room xs.length t d none

/-- A loop that closes is not exhausted. -/
theorem Closes.closing_ne {room : ℕ∞} {k : Nat} {o : Option Stop} (h : p.Closes rules room k t d o)
    {α : Type} (a : α) :
    closing a o ≠ .error .exhausted := by
  cases h with
  | full _ => nofun
  | failed _ _ => nofun
  | stopped _ h => exact fun heq => h.1 (congrArg Except.error (Except.error.inj heq))

/-- **How a repetition ends.** It follows a chain up to where it closes, and reports what it has
gathered unless it is stopped there. -/
theorem ends_many {least most : Count} {x : Except Stop Result} :
    (Parser.unary (.many least most) p).Ends rules s c x ↔
      ∃ xs t d o, p.Chain rules s c xs t d ∧ p.Closes rules most.room xs.length t d o ∧
        x = closing (Rule.reported least .many xs t d) o := by
  have hreported (xs : List Value) (t : Stream) (d : Value) (o : Option Stop) :
      (closing ⟨xs.reverse ++ [], t, d⟩ o).map (Rule.Sweep.atLeast · least .many) =
        closing (Rule.reported least .many xs t d) o := by
    rw [closing_map, Rule.Sweep.atLeast_eq]
    simp [Rule.Sweep.outputs]
  rw [ends_unary _ 0]
  simp only [Unary.toRule, Rule.many, Run.fst_map]
  constructor
  · rintro ⟨hx, n, b, log, hrun⟩
    -- a loop that runs out of budget would not have ended
    have hloop :
        (Rule.repeatFrom (p.direct rules n) b most (.start s c) log).1 ≠ .error .exhausted := by
      intro h
      rw [Nat.add_zero, h] at hrun
      exact hx hrun.symm
    obtain ⟨xs, t, d, o, hchain, hcloses, hsweep⟩ := repeatFrom_chain rfl hloop
    rw [Nat.add_zero, hsweep] at hrun
    exact ⟨xs, t, d, o, hchain, hcloses, hrun.symm.trans (hreported xs t d o)⟩
  · rintro ⟨xs, t, d, o, hchain, hcloses, hx⟩
    obtain ⟨n, hrun⟩ := (hchain.repeatFrom hcloses).exists
    refine ⟨hx ▸ hcloses.closing_ne _, n, xs.length + 1, #[], ?_⟩
    rw [hx, ← hreported]
    exact congrArg (Except.map _) (hrun xs.length le_rfl [] #[])

/-- A loop returns what was gathered, or reports it as the shortfall. -/
theorem ends_many_ok {least most : Count} {r : Result} :
    (Parser.unary (.many least most) p).Ends rules s c (.ok r) ↔
      ∃ xs t d, p.Gathers rules most.room s c xs t d ∧ r = Rule.reported least .many xs t d := by
  rw [ends_many]
  constructor
  · rintro ⟨xs, t, d, o, hchain, hcloses, hr⟩
    cases o with
    | none => exact ⟨xs, t, d, ⟨hchain, hcloses⟩, Except.ok.inj hr⟩
    | some e => simp [closing] at hr
  · rintro ⟨xs, t, d, hgathers, hr⟩
    exact ⟨xs, t, d, none, hgathers.chain, hgathers.closes, congrArg Except.ok hr⟩

/-- A loop is stopped by its part, behind successes that left room for more. -/
theorem ends_many_error {least most : Count} {e : Stop} :
    (Parser.unary (.many least most) p).Ends rules s c (.error e) ↔
      ∃ xs t d, p.Chain rules s c xs t d ∧ (xs.length : ℕ∞) < most.room ∧
        p.Ends rules t d (.error e) := by
  rw [ends_many]
  constructor
  · rintro ⟨xs, t, d, o, hchain, hcloses, he⟩
    cases hcloses with
    | full _ => simp [closing] at he
    | failed _ _ => simp [closing] at he
    | stopped hroom h =>
      obtain rfl := Except.error.inj he
      exact ⟨xs, t, d, hchain, hroom, h⟩
  · rintro ⟨xs, t, d, hchain, hroom, h⟩
    exact ⟨xs, t, d, some e, hchain, .stopped hroom h, rfl⟩

/-- The longest chain of at most `room` successes. -/
structure Longest (rules : Rules) (p : Parser Factory) (room : ℕ∞) (s : Stream) (c : Value)
    (xs : List Value) (t : Stream) (d : Value) : Prop where
  chain : p.Chain rules s c xs t d
  le_room : (xs.length : ℕ∞) ≤ room
  longest : ∀ ys t' d', p.Chain rules s c ys t' d' → (ys.length : ℕ∞) ≤ room → ys.length ≤ xs.length

/-- What is gathered is the longest chain that the room allows. -/
theorem gathers_iff {room : ℕ∞} : p.Gathers rules room s c xs t d ↔
    p.Longest rules room s c xs t d ∧ ((xs.length : ℕ∞) = room ∨ p.Fails rules t d) := by
  constructor
  · rintro ⟨hchain, hcloses⟩
    cases hcloses with
    | full hroom =>
      refine ⟨⟨hchain, hroom.le, fun ys t' d' _ hys => ?_⟩, .inl hroom⟩
      rw [← hroom] at hys
      exact_mod_cast hys
    | failed hroom h =>
      exact ⟨⟨hchain, hroom.le, fun ys t' d' hys _ => hchain.length_le h hys⟩, .inr h⟩
  · rintro ⟨⟨hchain, hle, _⟩, hend⟩
    refine ⟨hchain, ?_⟩
    rcases hle.eq_or_lt with hroom | hroom
    · exact .full hroom
    · exact .failed hroom (hend.resolve_left hroom.ne)

/-- **What a repetition is.** Let the part be run again and again, each time in the stream and the
context of its last success, up to `most` times. The repetition returns if this comes to an end,
because that many successes are reached or because the part fails; then its outputs are those of the
longest chain of at most `most` successes, and it ends where this chain ends: in a success if the
outputs reach the minimum, and otherwise in a failure that holds them. Nothing else of a failed
attempt is to be seen. If the part is stopped before, so is the repetition. -/
theorem many_ends_iff (rules : Rules) (p : Parser Factory) (least most : Count) (s : Stream)
    (c : Value) :
    (∀ r, (Parser.unary (.many least most) p).Ends rules s c (.ok r) ↔
      ∃ xs t d, p.Longest rules most.room s c xs t d ∧
        ((xs.length : ℕ∞) = most.room ∨ p.Fails rules t d) ∧ r = Rule.reported least .many xs t d) ∧
    ∀ e, (Parser.unary (.many least most) p).Ends rules s c (.error e) ↔
      ∃ xs t d, p.Chain rules s c xs t d ∧ (xs.length : ℕ∞) < most.room ∧
        p.Ends rules t d (.error e) := by
  refine ⟨fun r => ?_, fun e => ends_many_error⟩
  rw [ends_many_ok]
  simp only [gathers_iff, and_assoc]

/-- Three items are asked for, and two are there: the failure stands behind them, and the context is
that of the second one, with nothing of the attempt at the third. -/
example :
    let src : Source := ⟨0, .text, #[97, 97, 98]⟩
    let counted : Parser Factory := .leaf <| .custom fun s c =>
      .ok (if s.rest.head? = some 97 then .ok (s.advance 1) (.text [97]) (.list [c])
        else .err (s.advance 1) .null .null)
    (Parser.unary (.many (.finite 3) .infinite) counted).Ends (fun _ => none) ⟨src, 0⟩ .null
      (.ok (.err ⟨src, 2⟩ (.shortfall .many [.text [97], .text [97]]) (.list [.list [.null]]))) :=
  ⟨nofun, 4, fun _ => rfl⟩

/-! ## Cutting a repetition -/

/-- Two chains, one behind the other, are one chain with room for both. If the first one closes
before it is full, the part fails there, and so it does when it is tried again. -/
theorem gathers_add {a b : ℕ∞} {zs : List Value} : p.Gathers rules (a + b) s c zs t' d' ↔
    ∃ xs t d ys, p.Gathers rules a s c xs t d ∧ p.Gathers rules b t d ys t' d' ∧ zs = xs ++ ys := by
  constructor
  · rintro ⟨hchain, hcloses⟩
    rcases le_or_gt a zs.length with ha | ha
    · -- the first chain is full, and the second one has what is left
      lift a to ℕ using ne_top_of_le_ne_top (ENat.natCast_ne_top _) ha
      have hlength : zs.length = a + (zs.drop a).length := by
        have hle : a ≤ zs.length := by exact_mod_cast ha
        simp
        omega
      obtain ⟨t, d, hleft, hright⟩ := hchain.cut a
      rw [hlength, closes_add] at hcloses
      exact ⟨zs.take a, t, d, zs.drop a, ⟨hleft, .full (by simp; omega)⟩,
        ⟨hright, hcloses⟩, by simp⟩
    · -- the first chain is all there is, and the part is tried again where it has failed
      cases hcloses with
      | full hroom =>
        rw [hroom] at ha
        exact absurd ha (not_lt.mpr le_self_add)
      | failed _ h =>
        refine ⟨zs, t', d', [], ⟨hchain, .failed ha h⟩, ⟨.nil, ?_⟩, by simp⟩
        rcases eq_or_ne b 0 with hb | hb
        · exact .full (by simp [hb])
        · exact .failed (by simpa using pos_iff_ne_zero.mpr hb) h
  · rintro ⟨xs, t, d, ys, ⟨hleft, hcloses⟩, ⟨hright, hcloses'⟩, hzs⟩
    rw [hzs]
    refine ⟨hleft.append hright, ?_⟩
    cases hcloses with
    | full hroom =>
      rw [List.length_append, ← hroom]
      exact closes_add.mpr hcloses'
    | failed hroom h =>
      obtain ⟨rfl, rfl, rfl⟩ := hright.eq_nil h
      rw [List.append_nil]
      exact .failed (hroom.trans_le le_self_add) h

/-- Up to `a` repetitions succeed wherever they end. -/
theorem ends_upTo {a : ℕ∞} {r : Result} :
    (Parser.unary (.many (.finite 0) (.ofENat a)) p).Ends rules s c (.ok r) ↔
      ∃ xs t d, p.Gathers rules a s c xs t d ∧ r = .ok t (.list xs) d := by
  have hreported (xs : List Value) (t : Stream) (d : Value) :
      Rule.reported (.finite 0) .many xs t d = .ok t (.list xs) d := by
    rw [Rule.reported, if_pos (Count.isReachedBy_zero _)]
  rw [ends_many_ok, Count.room_ofENat]
  simp only [hreported]

theorem ends_upTo_list {a : ℕ∞} :
    (Parser.unary (.many (.finite 0) (.ofENat a)) p).Ends rules s c (.ok (.ok t (.list xs) d)) ↔
      p.Gathers rules a s c xs t d := by
  rw [ends_upTo]
  constructor
  · rintro ⟨ys, t', d', hgathers, heq⟩
    cases heq
    exact hgathers
  · intro hgathers
    exact ⟨xs, t, d, hgathers, rfl⟩

/-- Exactly `a` repetitions succeed with the chain of that length. -/
theorem ends_exactly {a : ℕ∞} {v : Value} :
    (Parser.unary (.many (.ofENat a) (.ofENat a)) p).Ends rules s c (.ok (.ok t v d)) ↔
      ∃ xs, (p.Gathers rules a s c xs t d ∧ (xs.length : ℕ∞) = a) ∧ v = .list xs := by
  rw [ends_many_ok, Count.room_ofENat]
  constructor
  · rintro ⟨xs, t', d', hgathers, hr⟩
    by_cases hreached : (Count.ofENat a).isReachedBy xs.length = true
    · have hlength : (xs.length : ℕ∞) = a :=
        le_antisymm hgathers.closes.le_room (Count.isReachedBy_ofENat.mp hreached)
      rw [Rule.reported, if_pos hreached] at hr
      cases hr
      exact ⟨xs, ⟨hgathers, hlength⟩, rfl⟩
    · rw [Rule.reported, if_neg hreached] at hr
      cases hr
  · rintro ⟨xs, ⟨hgathers, hlength⟩, hv⟩
    refine ⟨xs, t, d, hgathers, ?_⟩
    rw [Rule.reported, if_pos (Count.isReachedBy_ofENat.mpr hlength.ge), hv]

theorem ends_exactly_list {a : ℕ∞} :
    (Parser.unary (.many (.ofENat a) (.ofENat a)) p).Ends rules s c (.ok (.ok t (.list xs) d)) ↔
      p.Gathers rules a s c xs t d ∧ (xs.length : ℕ∞) = a := by
  rw [ends_exactly]
  simp

/-- Two chains fill the room for both if each of them fills its own. -/
theorem Gathers.full_iff {a b : ℕ∞} (h : p.Gathers rules a s c xs t d)
    (h' : p.Gathers rules b t d ys t' d') :
    ((xs ++ ys).length : ℕ∞) = a + b ↔ (xs.length : ℕ∞) = a ∧ (ys.length : ℕ∞) = b := by
  have hxs := h.closes.le_room
  have hys := h'.closes.le_room
  rw [List.length_append]
  constructor
  · intro hlength
    have hfinite : a ≠ ⊤ ∧ b ≠ ⊤ := WithTop.add_ne_top.mp (hlength ▸ ENat.natCast_ne_top _)
    lift a to ℕ using hfinite.1
    lift b to ℕ using hfinite.2
    norm_cast at *
    omega
  · rintro ⟨hxs, hys⟩
    rw [Nat.cast_add, hxs, hys]

/-- **Repetitions can be cut.** Up to `a` repetitions and then, from where they end, up to `b`
repetitions come to the same as up to `a + b` of them: the same outputs, one after the other, and
the same stream and context in the end. And exactly `a` repetitions with exactly `b` behind them
succeed where exactly `a + b` do, with the same outputs, stream and context. Either of the numbers
may be infinite. -/
theorem many_add (rules : Rules) (p : Parser Factory) (a b : ℕ∞) (s : Stream) (c : Value) :
    (∀ r, (Parser.unary (.many (.finite 0) (.ofENat (a + b))) p).Ends rules s c (.ok r) ↔
      ∃ xs t d ys t' d',
        (Parser.unary (.many (.finite 0) (.ofENat a)) p).Ends rules s c (.ok (.ok t (.list xs) d)) ∧
        (Parser.unary (.many (.finite 0) (.ofENat b)) p).Ends rules t d
          (.ok (.ok t' (.list ys) d')) ∧
        r = .ok t' (.list (xs ++ ys)) d') ∧
    ∀ t' v d', (Parser.unary (.many (.ofENat (a + b)) (.ofENat (a + b))) p).Ends rules s c
      (.ok (.ok t' v d')) ↔
      ∃ xs t d ys,
        (Parser.unary (.many (.ofENat a) (.ofENat a)) p).Ends rules s c (.ok (.ok t (.list xs) d)) ∧
        (Parser.unary (.many (.ofENat b) (.ofENat b)) p).Ends rules t d
          (.ok (.ok t' (.list ys) d')) ∧
        v = .list (xs ++ ys) := by
  constructor
  · intro r
    simp only [ends_upTo_list]
    rw [ends_upTo]
    constructor
    · rintro ⟨zs, t', d', hgathers, hr⟩
      obtain ⟨xs, t, d, ys, hleft, hright, rfl⟩ := gathers_add.mp hgathers
      exact ⟨xs, t, d, ys, t', d', hleft, hright, hr⟩
    · rintro ⟨xs, t, d, ys, t', d', hleft, hright, hr⟩
      exact ⟨xs ++ ys, t', d', gathers_add.mpr ⟨xs, t, d, ys, hleft, hright, rfl⟩, hr⟩
  · intro t' v d'
    simp only [ends_exactly_list]
    rw [ends_exactly]
    constructor
    · rintro ⟨zs, ⟨hgathers, hlength⟩, hv⟩
      obtain ⟨xs, t, d, ys, hleft, hright, rfl⟩ := gathers_add.mp hgathers
      -- together they have reached the minimum only if each of them has
      have hfull := (hleft.full_iff hright).mp hlength
      exact ⟨xs, t, d, ys, ⟨hleft, hfull.1⟩, ⟨hright, hfull.2⟩, hv⟩
    · rintro ⟨xs, t, d, ys, ⟨hleft, hxs⟩, ⟨hright, hys⟩, hv⟩
      have hlength := (hleft.full_iff hright).mpr ⟨hxs, hys⟩
      exact ⟨xs ++ ys, ⟨gathers_add.mpr ⟨xs, t, d, ys, hleft, hright, rfl⟩, hlength⟩, hv⟩

end Descent.Parser
