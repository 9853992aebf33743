import Descent.Proofs.Faults

/-!
# Descent — what a repetition with separators is

The loop with separators has its item and its separator in turns, and a choice of where it stands
when no item follows a separator. It is simpler than it looks. If the separator is left, it is an
item followed by a plain repetition of a separator with an item; if it is taken, it is the same with
one more separator at its end, if there is one.

* **`Rule.Answers`** — a rule that returns, with a result that depends on the stream and the context
  alone. The places where it is asked are a parameter, which both rules of a loop keep to. Leaves
  are such rules inside a source (`Rule.answers_leaf`).
* **`Rule.fst_separatedFrom_leave`** — the loop that leaves the separator is the plain one, turn by
  turn.
* **`Rule.fst_separatedFrom_take`** — the loop that takes it stands one separator further on, turn
  by turn.
* **`Rule.separated_leave_iff` / `Rule.separated_take_iff`** — the statements about results.
-/

namespace Descent

/-- A run that is followed by a function ends with the value of the function. -/
theorem Run.fst_map {σ α β : Type} (x : Run σ α) (f : α → β) (u : σ) :
    ((x >>= fun a => pure (f a)) u).1 = (x u).1.map f := by
  rw [Run.bind_apply]
  rcases x u with ⟨_ | a, u'⟩ <;> rfl

/-- What a leaf comes to, as a function. Where the leaf is at fault, this says nothing of it. -/
def Leaf.answer (l : Leaf) (s : Stream) (c : Value) : Result :=
  (l.run s c).toOption.getD (.err s .null c)

namespace Rule

variable {σ : Type}

/-! ## Rules that return -/

/-- Wherever `D` holds, the rule returns what `f` gives, in whatever state; and it goes on where `D`
holds. -/
structure Answers (D : Stream → Value → Prop) (p : Rule σ) (f : Stream → Value → Result) :
    Prop where
  returns : ∀ {s c}, D s c → ∀ u, (p s c u).1 = .ok (f s c)
  stays : ∀ {s c}, D s c → D (f s c).stream (f s c).context

variable {D : Stream → Value → Prop} {separator p : Rule σ} {f g : Stream → Value → Result}
  {s : Stream} {c : Value}

/-- The places inside a source, of which a machine word can tell the length. -/
def Inside (s : Stream) (_ : Value) : Prop :=
  s.InBounds ∧ s.source.size ≤ maxWord

/-- A leaf whose callbacks return is such a rule, as long as it does not ask for the position. -/
theorem answers_leaf {tracking : Prop} {l : Leaf} (hl : (Palette.faultless tracking).leaf l)
    (hposition : l ≠ .position) : (l.toRule : Rule σ).Answers Inside l.answer where
  returns {s c} hs u := by
    obtain ⟨r, hr⟩ := Leaf.returns_run hl hposition hs.1 hs.2 c
    rw [Leaf.toRule, Leaf.answer, hr]
    rfl
  stays {s c} hs := by
    have hcustom (run : Stream → Value → Except Fault Result) : l ≠ .custom run := by
      rintro rfl
      exact hl
    obtain ⟨r, hr⟩ := Leaf.returns_run hl hposition hs.1 hs.2 c
    have hlead := Leaf.leadsTo_run hcustom hs.1 hr
    rw [Leaf.answer, hr]
    exact ⟨hlead.inBounds hs.1, hlead.source ▸ hs.2⟩

/-- A character, for one. -/
theorem answers_char (cls : CharClass) :
    (Leaf.toRule (.char cls) : Rule σ).Answers Inside (Leaf.char cls).answer :=
  answers_leaf (show (Palette.faultless True).leaf (.char cls) from trivial) nofun

/-- What comes behind a rule that returns goes on from its result. -/
theorem Answers.bind_apply {α : Type} (hp : p.Answers D f) (hs : D s c) (next : Result → Run σ α)
    (u : σ) :
    ∃ u', (p s c >>= next) u = next (f s c) u' := by
  have hreturns := hp.returns hs u
  rw [Run.bind_apply]
  rcases hrun : p s c u with ⟨a, u'⟩
  rw [hrun] at hreturns
  obtain rfl : a = .ok (f s c) := hreturns
  exact ⟨u', rfl⟩

theorem Answers.stays_ok (hp : p.Answers D f) (hs : D s c) {t : Stream} {x d : Value}
    (h : f s c = .ok t x d) :
    D t d := by
  have hstays := hp.stays hs
  rwa [h] at hstays

/-- A separator with an item behind it. -/
theorem Answers.keepRight (hseparator : separator.Answers D f) (hp : p.Answers D g) :
    (separator.keepRight p).Answers D fun s c =>
      match f s c with
      | .err t e d => .err t e d
      | .ok t _ d => g t d where
  returns {s c} hs u := by
    obtain ⟨u', hrun⟩ := hseparator.bind_apply hs _ u
    unfold Rule.keepRight
    rw [hrun]
    cases hsep : f s c with
    | err t e d => rfl
    | ok t y d => exact hp.returns (hseparator.stays_ok hs hsep) u'
  stays {s c} hs := by
    cases hsep : f s c with
    | err t e d =>
      have hstays := hseparator.stays hs
      rwa [hsep] at hstays
    | ok t y d => exact hp.stays (hseparator.stays_ok hs hsep)

/-! ## What a loop reports -/

/-- The result of a repetition: success with its outputs if they reach the minimum, and otherwise a
failure that holds them, either way where the loop ended. -/
def reported (least : Count) (tag : Tag) (outputs : List Value) (s : Stream) (c : Value) : Result :=
  if least.isReachedBy outputs.length then .ok s (.list outputs) c
    else .err s (.shortfall tag outputs) c

theorem Sweep.atLeast_eq (w : Sweep) (least : Count) (tag : Tag) :
    w.atLeast least tag = reported least tag w.outputs w.stream w.context := by
  simp [Sweep.atLeast, reported, Sweep.succeed, Sweep.outputs]

/-- The sweep with outputs that were gathered before it began. -/
def Sweep.onto (before : List Value) (w : Sweep) : Sweep :=
  { w with gathered := w.gathered ++ before }

/-- A result that is reported with one more output in front. -/
theorem Sweep.atLeast_onto (w : Sweep) (x : Value) (least : Count) (tag : Tag) :
    (w.onto [x]).atLeast least tag = reported least tag (x :: w.outputs) w.stream w.context := by
  rw [Sweep.atLeast_eq]
  simp [Sweep.onto, Sweep.outputs]

/-- A plain loop puts its outputs behind those that it finds, and does not look at these. -/
theorem repeatFrom_onto (p : Rule σ) (budget : Nat) (most : Count) (before : List Value)
    (w : Sweep) :
    repeatFrom p budget most (w.onto before) =
      (repeatFrom p budget most w >>= fun w => pure (w.onto before)) := by
  induction budget generalizing most w with
  | zero => rfl
  | succ budget ih =>
    unfold repeatFrom
    split
    · show (p w.stream w.context >>= _) = _
      rw [bind_assoc]
      congr
      funext attempt
      cases attempt with
      | ok s x c => exact ih most.pred (w.push s x c)
      | err s e c => rfl
    · rfl

/-- Any number of repetitions returns the sweep of its loop as a success. -/
theorem many_zero_iff {budget : Nat} {most : Count} {v : σ} {xs : List Value} {t : Stream}
    {d : Value} :
    (Rule.many budget (.finite 0) most p s c v).1 = .ok (.ok t (.list xs) d) ↔
      (repeatFrom p budget most (.start s c) v).1 = .ok ⟨xs.reverse, t, d⟩ := by
  have hreached (n : Nat) : (Count.finite 0).isReachedBy n = true := by
    simp [Count.isReachedBy, Count.le]
  unfold Rule.many
  rw [Run.fst_map]
  cases (repeatFrom p budget most (.start s c) v).1 with
  | error e => exact ⟨nofun, nofun⟩
  | ok w =>
    obtain ⟨gathered, t', d'⟩ := w
    simp only [Except.map, Sweep.atLeast_eq, reported, hreached, if_true, Sweep.outputs,
      Except.ok.injEq, Result.ok.injEq, Value.list.injEq, Sweep.mk.injEq]
    rw [List.reverse_eq_iff]
    exact ⟨fun ⟨ht, hxs, hd⟩ => ⟨hxs, ht, hd⟩, fun ⟨hxs, ht, hd⟩ => ⟨ht, hxs, hd⟩⟩

/-! ## Separators that are left -/

/-- **From an item on, the loop repeats a separator with an item.** Behind the last item that is
admitted the separator is tried all the same; it returns, and nothing is made of it. -/
theorem fst_separatedFrom_leave (hseparator : separator.Answers D f) (hp : p.Answers D g)
    {budget : Nat} {most : Count} (hmost : most.isPositive = true) (w : Sweep) {x : Value}
    (hs : D s c) (u v : σ) :
    (separatedFrom separator p .leave budget most w (.ok s x c) u).1 =
      (repeatFrom (separator.keepRight p) budget most.pred (w.push s x c) v).1 := by
  induction budget generalizing most w s x c u v with
  | zero => rfl
  | succ budget ih =>
    obtain ⟨u', hleft⟩ := hseparator.bind_apply hs _ u
    obtain ⟨v', hright⟩ := (hseparator.keepRight hp).bind_apply hs _ v
    unfold separatedFrom repeatFrom
    rw [if_pos hmost, hleft]
    -- the separator loop looks at the maximum twice in a turn, before separator and item
    by_cases hmore : most.pred.isPositive = true
    · rw [if_pos hmore]
      show _ = ((separator.keepRight p s c >>= _) v).1
      rw [hright]
      cases hsep : f s c with
      | err t e d => rfl
      | ok t y d =>
        have ht := hseparator.stays_ok hs hsep
        obtain ⟨u₁, hleft₁⟩ := hp.bind_apply ht _ u'
        simp only [if_pos hmore]
        rw [hleft₁]
        cases hitem : g t d with
        | err t' e d' => cases budget <;> rfl
        | ok t' y' d' => exact ih hmore _ (hp.stays_ok ht hitem) u₁ v'
    · rw [if_neg hmore]
      cases f s c with
      | err t e d => rfl
      | ok t y d =>
        simp only [if_neg hmore]
        rfl

/-- The first item is tried, and the loop goes on from the attempt. -/
theorem fst_separated (separator : Rule σ) (hp : p.Answers D g) (trailing : Trailing) (budget : Nat)
    (least most : Count) (hs : D s c) (u : σ) :
    ∃ u', (separated trailing budget least most separator p s c u).1 =
      (separatedFrom separator p trailing budget most (.start s c) (g s c) u').1.map
        (·.atLeast least trailing.tag) := by
  obtain ⟨u', hfirst⟩ := hp.bind_apply hs _ u
  refine ⟨u', ?_⟩
  unfold separated
  rw [hfirst, Run.fst_map]

/-- **A repetition with separators is an item and a repetition of separators with items.** Let
separator and item return, each with a result that depends on stream and context alone. If no item
is admitted, or the first one fails, nothing is gathered, and the stream and the context are those
of the start. Otherwise the outputs are that of the first item and those that any number of
separators with an item, up to one less than is admitted, gather from there on, and the loop ends
where that repetition ends; so neither a separator at the end nor one that is tried behind the last
item admitted leaves a trace. Either way the result is a success if the outputs reach the minimum,
and a failure that holds them otherwise. -/
theorem separated_leave_iff (hseparator : separator.Answers D f) (hp : p.Answers D g) (budget : Nat)
    (least most : Count) (hs : D s c) (u v : σ) :
    (most.isPositive = false ∨ (g s c).isOk = false →
      (separated .leave (budget + 1) least most separator p s c u).1 =
        .ok (reported least .sepBy [] s c)) ∧
    ∀ s₁ x c₁, most.isPositive = true → g s c = .ok s₁ x c₁ → ∀ r,
      (separated .leave (budget + 1) least most separator p s c u).1 = .ok r ↔
        ∃ xs t d, (many (budget + 1) (.finite 0) most.pred (separator.keepRight p) s₁ c₁ v).1 =
          .ok (.ok t (.list xs) d) ∧ r = reported least .sepBy (x :: xs) t d := by
  obtain ⟨u', hrun⟩ := fst_separated separator hp .leave (budget + 1) least most hs u
  rw [hrun]
  constructor
  · intro hnothing
    -- the item failed or none is admitted, so nothing is gathered
    have hsweep : (separatedFrom separator p .leave (budget + 1) most (.start s c) (g s c) u').1 =
        .ok (.start s c) := by
      cases hitem : g s c with
      | err t e d => rfl
      | ok t x d =>
        have hmost : ¬ most.isPositive = true := by
          rw [hitem] at hnothing
          simpa [Result.isOk] using hnothing
        unfold separatedFrom
        rw [if_neg hmost]
        rfl
    rw [hsweep]
    exact congrArg Except.ok (Sweep.atLeast_eq _ least .sepBy)
  · intro s₁ x c₁ hmost hitem r
    -- the first item is gathered already, and the plain loop starts without it
    have honto : (Sweep.start s c).push s₁ x c₁ = (Sweep.start s₁ c₁).onto [x] := rfl
    rw [hitem, fst_separatedFrom_leave hseparator hp hmost _ (hp.stays_ok hs hitem) u' v, honto,
      repeatFrom_onto, Run.fst_map]
    simp only [many_zero_iff]
    cases (repeatFrom (separator.keepRight p) (budget + 1) most.pred (.start s₁ c₁) v).1 with
    | error e =>
      constructor
      · intro h
        cases h
      · rintro ⟨xs, t, d, h, -⟩
        cases h
    | ok w =>
      show Except.ok ((w.onto [x]).atLeast least .sepBy) = Except.ok r ↔ _
      rw [Sweep.atLeast_onto]
      constructor
      · intro h
        refine ⟨w.outputs, w.stream, w.context, ?_, (Except.ok.inj h).symm⟩
        rw [Sweep.outputs, List.reverse_reverse]
      · rintro ⟨xs, t, d, hw, rfl⟩
        obtain rfl := Except.ok.inj hw
        rw [Sweep.outputs, List.reverse_reverse]

/-- Digits with commas that wrap the context, on the text `1,2,`: the last comma is left, also where
three items are asked for, and where none is admitted nothing is read. A grammar of characters,
built and run, does the same, however many digits it asks for. -/
theorem separated_leave_iff_comma :
    let comma : Stream → Value → Result := fun s c =>
      if s.rest.head? = some 44 then .ok (s.advance 1) (.text [44]) (.list [c])
        else .err s .null .null
    let digit : Stream → Value → Result := fun s c =>
      if s.rest.head?.any Text.isDigit then .ok (s.advance 1) (.text (s.rest.take 1)) c
        else .err s .null .null
    let rule (f : Stream → Value → Result) : Rule Log := fun s c => pure (f s c)
    let src : Source := ⟨0, .text, #[49, 44, 50, 44]⟩
    (separated .leave 3 (.finite 0) .infinite (rule comma) (rule digit) ⟨src, 0⟩ .null #[]).1 =
        .ok (.ok ⟨src, 3⟩ (.list [.text [49], .text [50]]) (.list [.null])) ∧
      (separated .leave 3 (.finite 3) .infinite (rule comma) (rule digit) ⟨src, 0⟩ .null #[]).1 =
        .ok (.err ⟨src, 3⟩ (.shortfall .sepBy [.text [49], .text [50]]) (.list [.null])) ∧
      (separated .leave 3 (.finite 0) (.finite 0) (rule comma) (rule digit) ⟨src, 0⟩ .null #[]).1 =
        .ok (.ok ⟨src, 0⟩ (.list []) .null) ∧
      ∀ least : Nat, ∃ q, (Grammar.binary (.separated .leave (.finite least) .infinite) (.char ',')
          (.leaf (.char .digit))).check = .ok q ∧
        (q.direct (fun _ => none) 4 ⟨src, 0⟩ .null #[]).1 =
          .ok (reported (.finite least) .sepBy [.text [49], .text [50]] ⟨src, 3⟩ .null) := by
  intro comma digit rule src
  have hrule (f : Stream → Value → Result) : (rule f).Answers (fun _ _ => True) f :=
    ⟨fun _ _ => rfl, fun _ => trivial⟩
  have hiff (least most : Count) :=
    separated_leave_iff (hrule comma) (hrule digit) 2 least most (s := ⟨src, 0⟩)
      (c := .null) trivial #[] #[]
  have hinside : Inside ⟨src, 0⟩ .null := ⟨⟨by decide, by decide⟩, by decide⟩
  refine ⟨?_, ?_, (hiff (.finite 0) (.finite 0)).1 (.inl rfl), fun least => ?_⟩
  · exact ((hiff (.finite 0) .infinite).2 _ _ _ rfl rfl _).mpr
      ⟨[.text [50]], ⟨src, 3⟩, .list [.null], rfl, rfl⟩
  · exact ((hiff (.finite 3) .infinite).2 _ _ _ rfl rfl _).mpr
      ⟨[.text [50]], ⟨src, 3⟩, .list [.null], rfl, rfl⟩
  · refine ⟨_, rfl, ?_⟩
    have hbuilt := separated_leave_iff (answers_char (.exactly 44)) (answers_char .digit) 2
      (.finite least) .infinite hinside (#[] : Log) #[]
    exact (hbuilt.2 _ _ _ rfl rfl _).mpr ⟨[.text [50]], ⟨src, 3⟩, .null, rfl, rfl⟩

/-! ## Separators that are taken -/

/-- Where a loop stands that has gathered `xs` and ended at `t`, once it has taken the separator
that is found there. A loop without items takes none. -/
def pastSeparator (f : Stream → Value → Result) (xs : List Value) (t : Stream) (d : Value) :
    Stream × Value :=
  if xs.isEmpty then (t, d)
  else match f t d with
    | .ok t' _ d' => (t', d')
    | .err _ _ _ => (t, d)

/-- The sweep past the separator. -/
def Sweep.past (f : Stream → Value → Result) (w : Sweep) : Sweep :=
  ⟨w.gathered, (pastSeparator f w.outputs w.stream w.context).1,
    (pastSeparator f w.outputs w.stream w.context).2⟩

/-- Behind an item, the sweep past the separator is where the separator ends, and the sweep itself
if there is none. -/
theorem Sweep.past_push (f : Stream → Value → Result) (w : Sweep) (s : Stream) (x c : Value) :
    (w.push s x c).past f = match f s c with
      | .ok t _ d => { w.push s x c with stream := t, context := d }
      | .err _ _ _ => w.push s x c := by
  have houtputs : (w.push s x c).outputs.isEmpty = false := by
    simp [Sweep.outputs, Sweep.push]
  simp only [Sweep.past, pastSeparator, houtputs, Bool.false_eq_true, if_false]
  cases hsep : f s c <;> simp [Sweep.push, hsep]

/-- **The loop that takes separators stands past the one that leaves them.** -/
theorem fst_separatedFrom_take (hseparator : separator.Answers D f) (hp : p.Answers D g)
    (budget : Nat) (most : Count) (w : Sweep) {attempt : Result}
    (hattempt : D attempt.stream attempt.context) (u v : σ) :
    (separatedFrom separator p .take budget most (w.past f) attempt u).1 =
      (separatedFrom separator p .leave budget most w attempt v).1.map (·.past f) := by
  induction budget generalizing most w attempt u v with
  | zero => cases attempt <;> rfl
  | succ budget ih =>
    cases attempt with
    | err s e c => rfl
    | ok s x c =>
      have hs : D s c := hattempt
      have hpast := Sweep.past_push f w s x c
      unfold separatedFrom
      split
      · obtain ⟨u', hleft⟩ := hseparator.bind_apply hs _ u
        obtain ⟨v', hright⟩ := hseparator.bind_apply hs _ v
        rw [hleft, hright]
        -- with one more item both loops stand behind it, wherever they have stood before
        cases hsep : f s c with
        | err t e d =>
          rw [hsep] at hpast
          exact congrArg Except.ok hpast.symm
        | ok t y d =>
          have ht := hseparator.stays_ok hs hsep
          rw [hsep] at hpast
          simp only
          split
          · obtain ⟨u₁, hleft₁⟩ := hp.bind_apply ht _ u'
            obtain ⟨v₁, hright₁⟩ := hp.bind_apply ht _ v'
            rw [hleft₁, hright₁]
            have hrest := ih most.pred (w.push s x c) (hp.stays ht) u₁ v₁
            rwa [hpast] at hrest
          · exact congrArg Except.ok hpast.symm
      · rfl

theorem reported_inj {least : Count} {tag : Tag} {xs ys : List Value} {t t' : Stream} {d d' : Value}
    (h : reported least tag xs t d = reported least tag ys t' d') : xs = ys ∧ t = t' ∧ d = d' := by
  unfold reported at h
  split at h <;> split at h <;> cases h <;> exact ⟨rfl, rfl, rfl⟩

/-- **Separators that are taken.** Let separator and item return, each with a result that depends on
stream and context alone. The repetition that takes a separator at its end gathers what the one that
leaves it gathers, and succeeds where that one succeeds. It ends where that one ends or, if there is
an item and a separator is found there, behind this separator, in the context that the separator
leaves; so it does also where it falls short of the minimum. -/
theorem separated_take_iff (hseparator : separator.Answers D f) (hp : p.Answers D g) (budget : Nat)
    (least most : Count) (hs : D s c) (u v : σ) (r : Result) :
    (separated .take budget least most separator p s c u).1 = .ok r ↔
      ∃ xs t d, (separated .leave budget least most separator p s c v).1 =
        .ok (reported least .sepBy xs t d) ∧
        r = reported least .sepEndBy xs (pastSeparator f xs t d).1 (pastSeparator f xs t d).2 := by
  obtain ⟨u', htake⟩ := fst_separated separator hp .take budget least most hs u
  obtain ⟨v', hleave⟩ := fst_separated separator hp .leave budget least most hs v
  -- the two loops stand in the same place, one of them behind a last separator
  have hloop : (separatedFrom separator p .take budget most (.start s c) (g s c) u').1 =
      (separatedFrom separator p .leave budget most (.start s c) (g s c) v').1.map (·.past f) :=
    fst_separatedFrom_take hseparator hp budget most (.start s c) (hp.stays hs) u' v'
  rw [htake, hleave, hloop]
  cases (separatedFrom separator p .leave budget most (.start s c) (g s c) v').1 with
  | error e => exact ⟨nofun, nofun⟩
  | ok w =>
    show Except.ok ((w.past f).atLeast least .sepEndBy) = _ ↔
        ∃ xs t d, Except.ok (w.atLeast least .sepBy) = _ ∧ _
    rw [Sweep.atLeast_eq, Sweep.atLeast_eq]
    constructor
    · intro h
      exact ⟨w.outputs, w.stream, w.context, rfl, (Except.ok.inj h).symm⟩
    · rintro ⟨xs, t, d, hw, rfl⟩
      obtain ⟨rfl, rfl, rfl⟩ := reported_inj (Except.ok.inj hw)
      rfl

/-- Digits with commas that wrap the context, on the text `1,2,`: the last comma is taken, with its
context, also where three items are asked for. A grammar of characters, built and run, does the
same, however many digits it asks for. -/
theorem separated_take_iff_comma :
    let comma : Stream → Value → Result := fun s c =>
      if s.rest.head? = some 44 then .ok (s.advance 1) (.text [44]) (.list [c])
        else .err s .null .null
    let digit : Stream → Value → Result := fun s c =>
      if s.rest.head?.any Text.isDigit then .ok (s.advance 1) (.text (s.rest.take 1)) c
        else .err s .null .null
    let rule (f : Stream → Value → Result) : Rule Log := fun s c => pure (f s c)
    let src : Source := ⟨0, .text, #[49, 44, 50, 44]⟩
    (separated .take 3 (.finite 0) (.finite 2) (rule comma) (rule digit) ⟨src, 0⟩ .null #[]).1 =
        .ok (.ok ⟨src, 4⟩ (.list [.text [49], .text [50]]) (.list [.list [.null]])) ∧
      (separated .take 3 (.finite 3) .infinite (rule comma) (rule digit) ⟨src, 0⟩ .null #[]).1 =
        .ok (.err ⟨src, 4⟩ (.shortfall .sepEndBy [.text [49], .text [50]]) (.list [.list [.null]]))
          ∧
      ∀ least : Nat, ∃ q, (Grammar.binary (.separated .take (.finite least) .infinite) (.char ',')
          (.leaf (.char .digit))).check = .ok q ∧
        (q.direct (fun _ => none) 4 ⟨src, 0⟩ .null #[]).1 =
          .ok (reported (.finite least) .sepEndBy [.text [49], .text [50]] ⟨src, 4⟩ .null) := by
  intro comma digit rule src
  have hrule (f : Stream → Value → Result) : (rule f).Answers (fun _ _ => True) f :=
    ⟨fun _ _ => rfl, fun _ => trivial⟩
  have hiff (least most : Count) (r : Result) :=
    separated_take_iff (hrule comma) (hrule digit) 3 least most (s := ⟨src, 0⟩)
      (c := .null) trivial #[] #[] r
  have hinside : Inside ⟨src, 0⟩ .null := ⟨⟨by decide, by decide⟩, by decide⟩
  refine ⟨?_, ?_, fun least => ⟨_, rfl, ?_⟩⟩
  · exact (hiff (.finite 0) (.finite 2) _).mpr
      ⟨[.text [49], .text [50]], ⟨src, 3⟩, .list [.null], rfl, rfl⟩
  · exact (hiff (.finite 3) .infinite _).mpr
      ⟨[.text [49], .text [50]], ⟨src, 3⟩, .list [.null], rfl, rfl⟩
  · have hbuilt := separated_take_iff (answers_char (.exactly 44)) (answers_char .digit) 3
      (.finite least) .infinite hinside (#[] : Log) #[]
    exact (hbuilt _).mpr ⟨[.text [49], .text [50]], ⟨src, 3⟩, .null, rfl, rfl⟩

end Rule

end Descent
