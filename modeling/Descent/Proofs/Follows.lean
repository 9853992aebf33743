import Descent.Meaning
import Descent.Proofs.Scan
import Descent.Proofs.Streams

/-!
# Descent — rules that are scans

A rule follows a scan where its result, at every stream, is that of the scan on the text that is
left: the context is handed on as it is, and the state is left alone. The output of the rule is a
value, that of the scan may have a type of its own, so an encoding stands between the two.

* **`Rule.Follows`** — the relation, up to a given length of the text that is left.
* **one lemma for each combinator** — the rule that it makes follows the scan that the same
  combinator makes. The loops of rules take a budget, which must reach the length of the text.

The bound on the length is what a recursive rule is proved by: behind an opening bracket
(`Rule.Follows.between`) the text is shorter.
-/

namespace Descent

/-! ## The stream that leaves a text

A scan knows the text that is left, a rule the stream. In a given source the two are the same thing:
`Source.leaving` goes from the text to the stream, `Stream.rest` back. -/

def Source.leaving (src : Source) (r : Text) : Stream :=
  ⟨src, src.size - r.length⟩

namespace Source

variable {src : Source} {r r' : Text}

theorem length_le_size (hr : r <:+ src.units.toList) : r.length ≤ src.size := by
  have hsize := src.length_units
  have hle := hr.length_le
  omega

theorem inBounds_leaving (hr : r <:+ src.units.toList) : (src.leaving r).InBounds := by
  have hle := length_le_size hr
  constructor
  · show 0 ≤ (src.size : Int) - r.length
    omega
  · show (src.size : Int) - r.length ≤ src.size
    omega

theorem rest_leaving (hr : r <:+ src.units.toList) : (src.leaving r).rest = r := by
  have hle := length_le_size hr
  have hsize := src.length_units
  have hoffset :
      ((src.size : Int) - r.length).toNat = src.units.toList.length - r.length := by omega
  rw [(inBounds_leaving hr).rest_eq]
  show src.units.toList.drop ((src.size : Int) - r.length).toNat = r
  rw [hoffset]
  exact (List.suffix_iff_eq_drop.mp hr).symm

/-- Advancing over a text leaves what follows it. -/
theorem leaving_append_advance (src : Source) (t r : Text) :
    (src.leaving (t ++ r)).advance t.length = src.leaving r := by
  show (⟨src, (src.size : Int) - (t ++ r).length + t.length⟩ : Stream) = ⟨src, src.size - r.length⟩
  rw [List.length_append]
  congr 1
  omega

/-- To advance over a unit is to leave one unit less. -/
theorem leaving_cons_advance (src : Source) (u : Nat) (r : Text) :
    (src.leaving (u :: r)).advance 1 = src.leaving r :=
  src.leaving_append_advance [u] r

/-- To advance over the blanks is to leave the text without them. -/
theorem leaving_advance_blanks (src : Source) (r : Text) :
    (src.leaving r).advance (r.takeWhile Text.isBlank).length = src.leaving
      (r.dropWhile Text.isBlank) := by
  have hadvance := src.leaving_append_advance (r.takeWhile Text.isBlank) (r.dropWhile Text.isBlank)
  rwa [List.takeWhile_append_dropWhile] at hadvance

end Source

/-- Inside the source, a stream is told by what it leaves. -/
theorem Stream.InBounds.leaving_rest {s : Stream} (hs : s.InBounds) :
    s.source.leaving s.rest = s := by
  have hlen := hs.length_rest
  cases s with
  | mk src o =>
    show (⟨src, src.size - (Stream.rest ⟨src, o⟩).length⟩ : Stream) = ⟨src, o⟩
    rw [hlen]
    congr 1
    show (src.size : Int) - (src.size - o) = o
    omega

theorem Stream.InBounds.rest_suffix {s : Stream} (hs : s.InBounds) :
    s.rest <:+ s.source.units.toList := by
  rw [hs.rest_eq]
  exact List.drop_suffix _ _

/-- Where a stream stands that has advanced over the front of what was left. -/
theorem Stream.InBounds.advance_eq_leaving {s : Stream} (hs : s.InBounds) {t r : Text}
    (h : s.rest = t ++ r) :
    s.advance t.length = s.source.leaving r := by
  have hadvance := s.source.leaving_append_advance t r
  rwa [← h, hs.leaving_rest] at hadvance

/-! ## Following a scan -/

/-- The result of a rule where its scan ends so. -/
def Scanned.result {α : Type} (src : Source) (enc : α → Value) (c : Value) : Scanned α → Result
  | found x r => .ok (src.leaving r) (enc x) c
  | missed e r => .err (src.leaving r) e c

/-- The rule does what the scan does, at every stream that has fewer than `n` units left. -/
structure Rule.Follows {σ α : Type} (src : Source) (n : Nat) (enc : α → Value) (p : Rule σ)
    (f : Scan α) : Prop where
  run : ∀ ⦃r⦄, r <:+ src.units.toList → r.length < n → ∀ c,
    p (src.leaving r) c = Run.lift ((f r).map (Scanned.result src enc c))
  forward : f.Forward

theorem ok_bind {ε α β : Type} (a : α) (next : α → Except ε β) : (Except.ok a >>= next) = next a :=
  rfl

namespace Rule.Follows

variable {σ α β γ : Type} {src : Source} {n : Nat} {enc : α → Value} {enc' : β → Value}
  {enc₃ : γ → Value} {p q t : Rule σ} {f f' : Scan α} {g : Scan β} {h : Scan γ}

/-- A rule that follows a scan on all texts up to some length does so on the shorter ones. -/
theorem mono {m : Nat} (hp : Follows src n enc p f) (hm : m ≤ n) : Follows src m enc p f where
  run _ hr hn c := hp.run hr (Nat.lt_of_lt_of_le hn hm) c
  forward := hp.forward

/-- What a scan leaves is a last part of the source again, and no longer. -/
theorem found (hp : Follows src n enc p f) {r r' : Text} {x : α} (hr : r <:+ src.units.toList)
    (hn : r.length < n) (hx : f.Finds r x r') : r' <:+ src.units.toList ∧ r'.length < n :=
  ⟨(hp.forward hx).trans hr, Nat.lt_of_le_of_lt (hp.forward hx).length_le hn⟩

/-- A run that hands on the failure of a rule and goes on from its success, as a scan does. -/
theorem andThen (hp : Follows src n enc p f) {r : Text} (hr : r <:+ src.units.toList)
    (hn : r.length < n) {c : Value} {next : Result → Run σ Result} {K : α → Scan β}
    (herr : ∀ s e, next (.err s e c) = pure (.err s e c))
    (hok : ∀ x r', f.Finds r x r' → next (.ok (src.leaving r') (enc x) c) =
      Run.lift ((K x r').map (Scanned.result src enc' c))) :
    p (src.leaving r) c >>= next = Run.lift (((f >>= K) r).map (Scanned.result src enc' c)) := by
  rw [hp.run hr hn, Scan.bind_apply]
  cases hf : f r with
  | error fault => rfl
  | ok y =>
    cases y with
    | found x r' => exact hok x r' hf
    | missed e r' => exact herr (src.leaving r') e

/-- A run that tries something else where a rule fails, as a scan does. -/
theorem otherwise (hp : Follows src n enc p f) {r : Text} (hr : r <:+ src.units.toList)
    (hn : r.length < n) {c : Value} {next : Result → Run σ Result} {K : Scan α}
    (hok : ∀ s x, next (.ok s x c) = pure (.ok s x c))
    (herr : ∀ s e, next (.err s e c) = Run.lift ((K r).map (Scanned.result src enc c))) :
    p (src.leaving r) c >>= next = Run.lift ((f.orElse K r).map (Scanned.result src enc c)) := by
  rw [hp.run hr hn, Scan.orElse]
  cases hf : f r with
  | error fault => rfl
  | ok y =>
    cases y with
    | found x r' => exact hok (src.leaving r') (enc x)
    | missed e r' => exact herr (src.leaving r') e

/-! ## Sequencing and choice

A rule goes on from another one in one of two ways, `andThen` or `otherwise`; what is left to say
for a combinator is which scan goes on from where. `encode` and `decode` change the output alone, on
the side of the rule and on that of the scan. -/

/-- The function that is mapped over the output is a computation of the scan, and is at fault where
that is. -/
theorem map {k : Value → Except Fault Value} {K : α → Except Fault β} (hp : Follows src n enc p f)
    (hk : ∀ x, k (enc x) = (K x).map enc') :
    Follows src n enc' (p.map k) (f >>= fun x => Scan.lift (K x)) where
  run r hr hn c := by
    refine hp.andThen hr hn (fun _ _ => rfl) fun x r' _ => ?_
    show Run.lift (k (enc x)) >>= (fun y => pure (Result.ok (src.leaving r') y c)) = _
    rw [hk, Scan.lift]
    cases K x with
    | error fault => rfl
    | ok y => rfl
  forward := hp.forward.bind fun _ => .lift

/-- A function that is never at fault only changes how the output is encoded. -/
theorem encode {k : Value → Except Fault Value} {enc' : α → Value} (hp : Follows src n enc p f)
    (hk : ∀ x, k (enc x) = .ok (enc' x)) : Follows src n enc' (p.map k) f where
  run r hr hn c := by
    rw [Rule.map, hp.run hr hn]
    cases f r with
    | error fault => rfl
    | ok y =>
      cases y with
      | missed e r' => rfl
      | found x r' =>
        show Run.lift (k (enc x)) >>= (fun y => pure (Result.ok (src.leaving r') y c)) = _
        rw [hk]
        rfl
  forward := hp.forward

/-- An output that is encoded in one way is encoded in the other as well, from another value of the
scan. -/
theorem decode {d : α → β} (hp : Follows src n enc p f) (hd : ∀ x, enc x = enc' (d x)) :
    Follows src n enc' p (do return d (← f)) where
  run r hr hn c := by
    rw [hp.run hr hn, Scan.bind_apply]
    cases f r with
    | error fault => rfl
    | ok y =>
      cases y with
      | missed e r' => rfl
      | found x r' =>
        show Run.lift (.ok (Result.ok (src.leaving r') (enc x) c)) = _
        rw [hd]
        rfl
  forward := hp.forward.bind fun _ => .pure

theorem keepRight (hp : Follows src n enc p f) (hq : Follows src n enc' q g) :
    Follows src n enc' (p.keepRight q) (do let _ ← f; g) where
  run r hr hn c := by
    refine hp.andThen hr hn (fun _ _ => rfl) fun x r' hx => ?_
    obtain ⟨hr', hn'⟩ := hp.found hr hn hx
    exact hq.run hr' hn' c
  forward := hp.forward.bind fun _ => hq.forward

/-- Behind an opening that consumes, the text is shorter. -/
theorem between (hp : Follows src (n + 1) enc p f) (hf : f.Consumes) (hq : Follows src n enc' q g)
    (ht : Follows src n enc₃ t h) :
    Follows src (n + 1) enc₃ (Rule.between p q t)
      (do let _ ← f; let x ← h; let _ ← g; return x) where
  run r hr hn c := by
    refine hp.andThen hr hn (fun _ _ => rfl) fun x r₁ hx => ?_
    obtain ⟨hr₁, -⟩ := hp.found hr hn hx
    -- the opening is used up, so the bound for what follows is one less
    have hlen := hf hx
    have hn₁ : r₁.length < n := by omega
    refine ht.andThen hr₁ hn₁ (fun _ _ => rfl) fun y r₂ hy => ?_
    obtain ⟨hr₂, hn₂⟩ := ht.found hr₁ hn₁ hy
    exact hq.andThen hr₂ hn₂ (fun _ _ => rfl) fun _ _ _ => rfl
  forward := hp.forward.bind fun _ => ht.forward.bind fun _ => hq.forward.bind fun _ => .pure

theorem serial (hp : Follows src n enc p f) (hq : Follows src n enc' q g)
    (ht : Follows src n enc₃ t h) :
    Follows src n (fun x : α × β × γ => .tuple [enc x.1, enc' x.2.1, enc₃ x.2.2])
      (Rule.serial [p, q, t]) (do let x ← f; let y ← g; let z ← h; return (x, y, z)) where
  run r hr hn c := by
    refine hp.andThen hr hn (fun _ _ => rfl) fun x r₁ hx => ?_
    obtain ⟨hr₁, hn₁⟩ := hp.found hr hn hx
    refine hq.andThen hr₁ hn₁ (fun _ _ => rfl) fun y r₂ hy => ?_
    obtain ⟨hr₂, hn₂⟩ := hq.found hr₁ hn₁ hy
    exact ht.andThen hr₂ hn₂ (fun _ _ => rfl) fun _ _ _ => rfl
  forward := hp.forward.bind fun _ => hq.forward.bind fun _ => ht.forward.bind fun _ => .pure

/-- The alternative starts where the first part did, at the same text. -/
theorem orElse (hp : Follows src n enc p f) (hq : Follows src n enc q f') :
    Follows src n enc (p.orElse q) (f.orElse f') where
  run _ hr hn c := hp.otherwise hr hn (fun _ _ => rfl) fun _ _ => hq.run hr hn c
  forward := hp.forward.orElse hq.forward

theorem choice_cons {ps : List (Rule σ)} (hp : Follows src n enc p f)
    (hps : Follows src n enc (Rule.choice q ps) f') :
    Follows src n enc (Rule.choice p (q :: ps)) (f.orElse f') :=
  hp.orElse hps

theorem optional (hp : Follows src n enc p f) :
    Follows src n (fun o : Option α => o.elim .null enc) p.optional f.optional where
  run r hr hn c := by
    rw [Scan.optional, Rule.optional, hp.run hr hn, Scan.orElse, Scan.bind_apply]
    cases f r with
    | error fault => rfl
    | ok y => cases y <;> rfl
  forward := hp.forward.optional

/-- The blanks that the rule skips in the stream are those that the scan drops from the text. -/
theorem trimmed (htext : src.kind = .text) (hp : Follows src n enc p f) :
    Follows src n enc (Rule.trimmed p) f.trimmed where
  run r hr hn c := by
    have hskip : (src.leaving r).skipBlanks = .ok (src.leaving (r.dropWhile Text.isBlank)) := by
      -- the stream advances over the blanks that the scan drops
      rw [(Source.inBounds_leaving hr).skipBlanks_eq (decide_eq_true htext), Source.rest_leaving hr,
        src.leaving_advance_blanks]
    have hsuffix := List.dropWhile_suffix Text.isBlank (l := r)
    rw [Rule.trimmed, hskip]
    exact hp.run (hsuffix.trans hr) (Nat.lt_of_le_of_lt hsuffix.length_le hn) c
  forward := hp.forward.trimmed

/-! ## Loops

The loops of rules gather their outputs in reverse onto what they have, so the statements about them
are for any outputs gathered before. They are by induction on the bound of the loop of scans; the
budget goes down with it. -/

/-- The state of a loop of rules, where that of scans ends so. -/
def sweepOf (src : Source) (enc : α → Value) (c : Value) (gathered : List Value)
    (y : Scanned (List α)) : Sweep :=
  ⟨(y.outputs.map enc).reverse ++ gathered, src.leaving y.rest, c⟩

/-- A loop of a rule that consumes does not use up a budget beyond the length of the text. Its bound
is either the bound of the loop of scans, or none, and then that of the scans is out of reach. -/
theorem repeatFrom_eq (hp : Follows src n enc p f) (hf : f.Consumes) (budget k : Nat) {most : Count}
    {r : Text} (hr : r <:+ src.units.toList) (hn : r.length < n) (hbudget : r.length < budget)
    (hmost : most = .finite k ∨ most = .infinite ∧ r.length < k) (gathered : List Value)
    (c : Value) :
    repeatFrom p budget most ⟨gathered, src.leaving r, c⟩ = Run.lift
      ((f.sweep k r).map (sweepOf src enc c gathered)) := by
  induction k generalizing budget most r gathered with
  | zero =>
    -- only a finite bound can be used up, and the loop notices with one more unit of its budget
    obtain ⟨budget, rfl⟩ : ∃ b, budget = b + 1 := ⟨budget - 1, by omega⟩
    rcases hmost with rfl | ⟨-, hk⟩
    · rfl
    · omega
  | succ k ih =>
    obtain ⟨budget, rfl⟩ : ∃ b, budget = b + 1 := ⟨budget - 1, by omega⟩
    have hpositive : most.isPositive = true := by
      rcases hmost with rfl | ⟨rfl, -⟩
      · exact decide_eq_true (by omega)
      · rfl
    rw [repeatFrom, if_pos hpositive, Scan.sweep_succ_apply]
    show p (src.leaving r) c >>= _ = _
    rw [hp.run hr hn]
    cases hfr : f r with
    | error fault => rfl
    | ok y =>
      cases y with
      | missed e r₁ => rfl
      | found x r₁ =>
        obtain ⟨hr₁, hn₁⟩ := hp.found hr hn hfr
        -- one turn takes one from the bound, and from the text at least one unit
        have hlen := hf hfr
        have hpred : most.pred = .finite k ∨ most.pred = .infinite ∧ r₁.length < k := by
          rcases hmost with rfl | ⟨rfl, hk⟩
          · exact .inl (congrArg Count.finite (by omega))
          · exact .inr ⟨rfl, by omega⟩
        show repeatFrom p budget most.pred ⟨enc x :: gathered, src.leaving r₁, c⟩ = _
        rw [ih budget hr₁ hn₁ (by omega) hpred]
        simp only
        cases f.sweep k r₁ with
        | error fault => rfl
        | ok z => simp [Except.map, sweepOf, Scanned.outputs, Scanned.rest]

/-- The outputs of a loop, encoded as a list. -/
def encodeList (enc : α → Value) (xs : List α) : Value :=
  .list (xs.map enc)

/-- The report on a loop that needs no minimum: all outputs, those gathered before in front. -/
theorem sweepOf_succeed {c : Value} {xs : List α} {r : Text} (gathered : List Value) :
    (sweepOf src enc c gathered (.found xs r)).succeed = .ok (src.leaving r)
      (.list (gathered.reverse ++ xs.map enc)) c := by
  simp [sweepOf, Sweep.succeed, Sweep.outputs, Scanned.outputs, Scanned.rest]

/-- The loop needs a budget that exceeds the text, and each turn consumes, so that it never runs
out. -/
theorem many0 (hp : Follows src n enc p f) (hf : f.Consumes) {budget : Nat} (hbudget : n ≤ budget) :
    Follows src n (encodeList enc) (Rule.many budget (.finite 0) .infinite p) f.many where
  run r hr hn c := by
    have hloop := hp.repeatFrom_eq hf budget (r.length + 1) hr hn (by omega)
      (.inr ⟨rfl, Nat.lt_succ_self _⟩) [] c
    rw [Rule.many, Sweep.start, hloop, Scan.many]
    rcases f.sweep_cases (r.length + 1) r with ⟨fault, hsweep⟩ | ⟨xs, r', hsweep⟩
    · rw [hsweep]
      rfl
    · rw [hsweep]
      have hreached :
          Count.isReachedBy (.finite 0) (sweepOf src enc c [] (.found xs r')).gathered.length =
          true := by
        simp [Count.isReachedBy, Count.le]
      show Run.ret (Sweep.atLeast (sweepOf src enc c [] (.found xs r')) (.finite 0) .many) = _
      rw [Sweep.atLeast, if_pos hreached, sweepOf_succeed]
      rfl
  forward := hp.forward.many

/-- The loop stops at the number that is asked for; if it falls short of it, so does the scan. -/
theorem exactly (hp : Follows src n enc p f) (hf : f.Consumes) {budget : Nat} (hbudget : n ≤ budget)
    (k : Nat) :
    Follows src n (encodeList enc) (Rule.many budget (.finite k) (.finite k) p)
      (f.exactly k fun xs => .shortfall .many (xs.map enc)) where
  run r hr hn c := by
    have hloop := hp.repeatFrom_eq hf budget k hr hn (by omega) (.inl rfl) [] c
    rw [Rule.many, Sweep.start, hloop, Scan.exactly, Scan.bind_apply]
    -- the scan either is at fault or has found at most `k` outputs
    rcases f.sweep_cases k r with ⟨fault, hsweep⟩ | ⟨xs, r', hsweep⟩
    · rw [hsweep]
      rfl
    · rw [hsweep]
      have hreached :
          Count.isReachedBy (.finite k) (sweepOf src enc c [] (.found xs r')).gathered.length
          = decide (k ≤ xs.length) := by
        simp [Count.isReachedBy, Count.le, sweepOf, Scanned.outputs]
      show Run.ret (Sweep.atLeast (sweepOf src enc c [] (.found xs r')) (.finite k) .many) = _
      rw [Sweep.atLeast, hreached]
      by_cases hk : k ≤ xs.length
      · simp only [hk, decide_true, if_true, sweepOf_succeed]
        rfl
      · simp only [hk, decide_false, Bool.false_eq_true, if_false, sweepOf, Sweep.outputs,
          Scanned.outputs, List.append_nil, List.reverse_reverse]
        rfl
  forward := hp.forward.exactly

theorem many1 (hp : Follows src n enc p f) (hf : f.Consumes) {budget : Nat} (hbudget : n ≤ budget) :
    Follows src n (encodeList enc) (Rule.many1 budget p) f.many1 where
  run r hr hn c := by
    refine hp.andThen hr hn (fun _ _ => rfl) fun x r₁ hx => ?_
    obtain ⟨hr₁, hn₁⟩ := hp.found hr hn hx
    have hloop := hp.repeatFrom_eq hf budget (r₁.length + 1) hr₁ hn₁ (by omega)
      (.inr ⟨rfl, Nat.lt_succ_self _⟩) [enc x] c
    show (repeatFrom p budget .infinite ⟨[enc x], src.leaving r₁, c⟩ >>= fun w => pure w.succeed) =
        _
    rw [hloop, Scan.bind_apply, Scan.many]
    rcases f.sweep_cases (r₁.length + 1) r₁ with ⟨fault, hsweep⟩ | ⟨xs, r', hsweep⟩
    · rw [hsweep]
      rfl
    · rw [hsweep]
      show Run.ret (Sweep.succeed (sweepOf src enc c [enc x] (.found xs r'))) = _
      rw [sweepOf_succeed]
      rfl
  forward := hp.forward.many1

/-- A loop with separators, from a success on, is a loop of separators with an item behind. -/
theorem separatedFrom_eq (hq : Follows src n enc' q g) (hp : Follows src n enc p f)
    (hg : g.Consumes) (budget k : Nat) {r : Text} (hr : r <:+ src.units.toList) (hn : r.length < n)
    (hbudget : r.length < budget) (hk : r.length < k) (gathered : List Value) (s : Stream)
    (v c : Value) :
    separatedFrom q p .leave budget .infinite ⟨gathered, s, c⟩ (.ok (src.leaving r) v c)
      = Run.lift
        (((do let _ ← g; f : Scan α).sweep k r).map (sweepOf src enc c (v :: gathered))) := by
  induction k generalizing budget r gathered s v with
  | zero => omega
  | succ k ih =>
    obtain ⟨budget, rfl⟩ : ∃ b, budget = b + 1 := ⟨budget - 1, by omega⟩
    have hpositive : Count.infinite.isPositive = true := rfl
    rw [separatedFrom, if_pos hpositive, Scan.sweep_succ_apply, Scan.bind_apply]
    rw [hq.run hr hn]
    cases hgr : g r with
    | error fault => rfl
    | ok y =>
      cases y with
      | missed e r₁ => rfl
      | found y r₁ =>
        obtain ⟨hr₁, hn₁⟩ := hq.found hr hn hgr
        have hlen := hg hgr
        show p (src.leaving r₁) c >>=
            separatedFrom q p .leave budget .infinite ⟨v :: gathered, src.leaving r, c⟩ = _
        rw [hp.run hr₁ hn₁]
        simp only
        cases hfr : f r₁ with
        | error fault => rfl
        | ok y =>
          cases y with
          | missed e r₂ =>
            -- a separator that no item follows is left unread
            show separatedFrom q p .leave budget .infinite ⟨v :: gathered, src.leaving r, c⟩
                (.err (src.leaving r₂) e c) = _
            cases budget <;> rfl
          | found x r₂ =>
            obtain ⟨hr₂, hn₂⟩ := hp.found hr₁ hn₁ hfr
            show separatedFrom q p .leave budget .infinite ⟨v :: gathered, src.leaving r, c⟩
              (.ok (src.leaving r₂) (enc x) c) = _
            have hlen₂ : r₂.length ≤ r₁.length := (hp.forward hfr).length_le
            rw [ih budget hr₂ hn₂ (by omega) (by omega)]
            simp only
            cases (do let _ ← g; f : Scan α).sweep k r₂ with
            | error fault => rfl
            | ok z => simp [Except.map, sweepOf, Scanned.outputs, Scanned.rest]

/-- The rule keeps its last item and separator apart, and so one step is taken ahead of the scan;
behind it the loops are the same. -/
theorem sepBy (hq : Follows src n enc' q g) (hp : Follows src n enc p f) (hg : g.Consumes)
    {budget : Nat} (hbudget : n ≤ budget) :
    Follows src n (encodeList enc) (Rule.separated .leave budget (.finite 0) .infinite q p)
      (Scan.sepBy g f) where
  run r hr hn c := by
    -- with a minimum of zero there is no shortfall
    have hreached (w : Sweep) : w.atLeast (.finite 0) .sepBy = w.succeed :=
      if_pos (by simp [Count.isReachedBy, Count.le])
    rw [Rule.separated, hp.run hr hn, Scan.sepBy, Scan.orElse, Scan.bind_apply]
    cases hfr : f r with
    | error fault => rfl
    | ok y =>
      cases y with
      | missed e r₁ =>
        show (separatedFrom q p .leave budget .infinite (Sweep.start (src.leaving r) c)
            (.err (src.leaving r₁) e c)
          >>= fun w => pure (w.atLeast (.finite 0) .sepBy)) = _
        cases budget <;> rfl
      | found x r₁ =>
        -- behind the first item, each turn is a separator and an item
        obtain ⟨hr₁, hn₁⟩ := hp.found hr hn hfr
        have hloop := hq.separatedFrom_eq hp hg budget (r₁.length + 1) hr₁ hn₁ (by omega)
          (Nat.lt_succ_self _) [] (src.leaving r) (enc x) c
        show (separatedFrom q p .leave budget .infinite ⟨[], src.leaving r, c⟩
            (.ok (src.leaving r₁) (enc x) c)
          >>= fun w => pure (w.atLeast (.finite 0) .sepBy)) = _
        simp only [hloop, Scan.bind_apply, Scan.many]
        rcases (do let _ ← g; f : Scan α).sweep_cases (r₁.length + 1) r₁ with
          ⟨fault, hsweep⟩ | ⟨xs, r', hsweep⟩
        · rw [hsweep]
          rfl
        · rw [hsweep]
          show Run.ret
              (Sweep.atLeast (sweepOf src enc c [enc x] (.found xs r')) (.finite 0) .sepBy) = _
          rw [hreached, sweepOf_succeed]
          rfl
  forward := hq.forward.sepBy hp.forward

/-! ## Leaves

Text leaves look at a unit or two of the stream, or compare a literal; on a text, `Stream.peek` and
`Stream.startsWith` are views of the text that is left. -/

/-- A leaf that looks at one unit and takes it if it is of a class. -/
theorem ofUnit {l : Leaf} {mem : Nat → Bool} {error : Option Nat → Value} (htext : src.kind = .text)
    (hnone : ∀ s c, s.peek 0 = .ok none → l.run s c = .ok (.err s (error none) c))
    (hsome : ∀ s c u, s.peek 0 = .ok (some u) → s.kind = .text → l.run s c =
      if mem u then .ok (.ok (s.advance 1) (.text [u]) c) else .ok (.err s (error (some u)) c)) :
    Follows src n (fun u => .text [u]) (l.toRule : Rule σ) (Scan.unit mem error) where
  run r hr _ c := by
    have hpeek : (src.leaving r).peek 0 = .ok r[0]? := by
      rw [(Source.inBounds_leaving hr).peek_zero, Source.rest_leaving hr]
    cases r with
    | nil =>
      rw [Leaf.toRule, hnone _ c hpeek]
      rfl
    | cons u r =>
      rw [Leaf.toRule, hsome _ c u hpeek htext, Scan.unit, Source.leaving_cons_advance]
      split <;> rfl
  forward := .unit

/-- A leaf for a class looks at one unit, and so does the scan. -/
theorem char (htext : src.kind = .text) (cls : CharClass) :
    Follows src n (fun u => .text [u]) ((Leaf.char cls).toRule : Rule σ)
      (Scan.unit cls.mem fun _ => .tag cls.tag) := by
  refine ofUnit htext (fun s c h => ?_) fun s c u h hkind => ?_
  · rw [Leaf.run, Leaf.matchUnit, h]
    rfl
  · rw [Leaf.run, Leaf.matchUnit, h]
    show (if (decide (s.kind = .text) && cls.mem u) = true then _ else _) = _
    rw [decide_eq_true hkind, Bool.true_and]
    rfl

/-- The error of a hexadecimal digit that is not there. -/
def hexError : Option Nat → Value
  | some u => .tag (HexCase.tagAt u)
  | none => .tag .hex

/-- The leaf for hexadecimal digits tells a digit of the wrong case from another character, and so
does the error of the scan. -/
theorem hex (htext : src.kind = .text) (case : HexCase) :
    Follows src n (fun u => .text [u]) ((Leaf.hex case).toRule : Rule σ)
      (Scan.unit case.mem hexError) := by
  refine ofUnit htext (fun s c h => ?_) fun s c u h hkind => ?_
  · rw [Leaf.run, Leaf.matchHex, h]
    rfl
  · rw [Leaf.run, Leaf.matchHex, h]
    show (if s.isText = true then _ else _) = _
    rw [if_pos (show s.isText = true from decide_eq_true hkind)]
    rfl

/-- The leaf compares the text that is left with its own, and advances by its length. -/
theorem string (htext : src.kind = .text) (t : Text) :
    Follows src n (fun _ => .text t) ((Leaf.string t).toRule : Rule σ)
      (Scan.literal t (.tag .string)) where
  run r hr _ c := by
    have hkind : decide ((src.leaving r).kind = .text) = true := decide_eq_true htext
    have hstarts : (src.leaving r).startsWith t = t.isPrefixOf r := by
      rw [Bool.eq_iff_iff, (Source.inBounds_leaving hr).startsWith_iff, Source.rest_leaving hr,
        List.isPrefixOf_iff_prefix]
    rw [Leaf.toRule, Leaf.run, Leaf.matchLiteral, hkind, hstarts, Bool.true_and, Scan.literal]
    split
    · next ht =>
      obtain ⟨r', rfl⟩ := List.isPrefixOf_iff_prefix.mp ht
      rw [Source.leaving_append_advance, List.drop_left]
      rfl
    · rfl
  forward := .literal

/-- The leaf looks two units ahead and its table up, as the scan does with the meanings. -/
theorem escapedWith (htext : src.kind = .text) (control : Nat) {entries : List (Nat × Value)}
    {meaning : Nat → Option α} (hmeaning : ∀ k, Leaf.meaningOf? k entries = (meaning k).map enc) :
    Follows src n enc ((Leaf.escapedWith control entries).toRule : Rule σ)
      (Scan.entry control meaning (.tag .escapedWith)) where
  run r hr _ c := by
    have hkind : (src.leaving r).isText = true := decide_eq_true htext
    have hhere : Leaf.atControl control (src.leaving r) = .ok (decide (r[0]? = some control)) := by
      rw [Leaf.atControl, (Source.inBounds_leaving hr).peek_zero, Source.rest_leaving hr, hkind]
      rfl
    have hpeek : (src.leaving r).peek 1 = .ok r[1]? := by
      rw [(Source.inBounds_leaving hr).peek_one, Source.rest_leaving hr]
    rw [Leaf.toRule, Leaf.run, Leaf.matchEntry, hhere, hpeek]
    cases r with
    | nil => rfl
    | cons u r =>
      by_cases hu : u = control
      · rw [hu, decide_eq_true (by rfl)]
        cases r with
        | nil =>
          -- the control character at the very end: there is nothing to look up
          rfl
        | cons k r =>
          have hadvance : (src.leaving (control :: k :: r)).advance 2 = src.leaving r :=
            Source.leaving_append_advance src [control, k] r
          have hlookup : ((control :: k :: r)[1]?.bind fun k => Leaf.meaningOf? k entries) =
              (meaning k).map enc :=
            hmeaning k
          rw [ok_bind, if_pos rfl, ok_bind, hlookup, hadvance, Scan.entry, if_pos rfl]
          cases meaning k <;> rfl
      · rw [decide_eq_false (by simpa using hu)]
        cases r with
        | nil => rfl
        | cons k r =>
          rw [Scan.entry, if_neg hu]
          rfl
  forward := .entry

end Rule.Follows

/-! ## Grammars that are scans

The same, one step earlier: a grammar is built, and the rule of the parser that comes out follows a
scan. Nothing that is built here is checked for more than its parts, so the lemmas for operations on
one and on two grammars take the lemma for rules as an argument. -/

/-- The grammar can be built, and the rule of its parser follows the scan. -/
def Grammar.Follows {σ α : Type} (host : Host σ Factory) (budget : Nat) (src : Source) (n : Nat)
    (enc : α → Value) (g : Grammar) (f : Scan α) : Prop :=
  ∃ p, g.check = .ok p ∧ Rule.Follows src n enc (p.toRule host budget) f

namespace Grammar.Follows

variable {σ α β γ : Type} {host : Host σ Factory} {budget : Nat} {src : Source} {n : Nat}
  {enc : α → Value} {enc' : β → Value} {enc₃ : γ → Value} {g g' g'' : Grammar} {f f' : Scan α}
  {h : Scan β} {k : Scan γ}

theorem mono {m : Nat} (hg : g.Follows host budget src n enc f) (hm : m ≤ n) :
    g.Follows host budget src m enc f := by
  obtain ⟨p, hp, hrule⟩ := hg
  exact ⟨p, hp, hrule.mono hm⟩

/-- An output may be taken for the encoding of another value. -/
theorem decode {d : α → β} (hg : g.Follows host budget src n enc f) (hd : ∀ x, enc x = enc' (d x)) :
    g.Follows host budget src n enc' (do return d (← f)) := by
  obtain ⟨p, hp, hrule⟩ := hg
  exact ⟨p, hp, hrule.decode hd⟩

/-- A leaf that passes its check follows what its rule follows. -/
theorem terminal {t : Terminal} {l : Leaf} (ht : t.check = .ok l)
    (hl : Rule.Follows src n enc (l.toRule : Rule σ) f) :
    (Grammar.terminal t).Follows host budget src n enc f := by
  refine ⟨.leaf l, ?_, hl⟩
  rw [Grammar.check, ht]
  rfl

/-- Operations on one grammar that are built without a check of their own. -/
theorem unary {op : Unary} (hop : op.check = .ok ()) (hg : g.Follows host budget src n enc f)
    (hrule : ∀ {p : Rule σ}, Rule.Follows src n enc p f →
      Rule.Follows src n enc' (op.toRule host.note budget p) h) :
    (Grammar.unary op g).Follows host budget src n enc' h := by
  obtain ⟨p, hp, hpf⟩ := hg
  refine ⟨.unary op p, ?_, hrule hpf⟩
  rw [Grammar.check, hp]
  show (op.check >>= fun _ => pure (Parser.unary op p)) = _
  rw [hop]
  rfl

/-- Two grammars are built one after the other, and the operation joins their rules. -/
theorem binary {op : Binary} (hop : op.check = .ok ()) (hg : g.Follows host budget src n enc f)
    (hg' : g'.Follows host budget src n enc' h)
    (hrule : ∀ {p q : Rule σ}, Rule.Follows src n enc p f → Rule.Follows src n enc' q h →
      Rule.Follows src n enc₃ (op.toRule budget p q) k) :
    (Grammar.binary op g g').Follows host budget src n enc₃ k := by
  obtain ⟨p, hp, hpf⟩ := hg
  obtain ⟨q, hq, hqf⟩ := hg'
  refine ⟨.binary op p q, ?_, hrule hpf hqf⟩
  rw [Grammar.check, hp, hq]
  show (op.check >>= fun _ => pure (Parser.binary op p q)) = _
  rw [hop]
  rfl

/-- What is opened consumes, so behind it there is less text, and that is all for which the rest is
needed. -/
theorem between (hg : g.Follows host budget src (n + 1) enc f) (hf : f.Consumes)
    (hg' : g'.Follows host budget src n enc' h) (hg'' : g''.Follows host budget src n enc₃ k) :
    (Grammar.between g g' g'').Follows host budget src (n + 1) enc₃
      (do let _ ← f; let x ← k; let _ ← h; return x) := by
  obtain ⟨p, hp, hpf⟩ := hg
  obtain ⟨q, hq, hqf⟩ := hg'
  obtain ⟨t, ht, htf⟩ := hg''
  refine ⟨.between p q t, ?_, hpf.between hf hqf htf⟩
  rw [Grammar.check, hp, hq, ht]
  rfl

/-- Three grammars in a row, built from left to right. -/
theorem serial (hg : g.Follows host budget src n enc f) (hg' : g'.Follows host budget src n enc' h)
    (hg'' : g''.Follows host budget src n enc₃ k) :
    (Grammar.serial [g, g', g'']).Follows host budget src n
      (fun x : α × β × γ => .tuple [enc x.1, enc' x.2.1, enc₃ x.2.2])
      (do let x ← f; let y ← h; let z ← k; return (x, y, z)) := by
  obtain ⟨p, hp, hpf⟩ := hg
  obtain ⟨q, hq, hqf⟩ := hg'
  obtain ⟨t, ht, htf⟩ := hg''
  refine ⟨.serial [p, q, t], ?_, hpf.serial hqf htf⟩
  simp only [Grammar.check, Grammar.checkAll, hp, hq, ht]
  rfl

/-- A grammar that is a scan, run on its own. -/
theorem direct {rules : Rules} {s : Stream} (hs : s.InBounds)
    (hg : g.Follows (Host.direct rules (Parser.direct rules budget)) budget s.source
      (s.rest.length + 1) enc f)
    {p : Parser Factory} (hp : g.check = .ok p) (c : Value) :
    p.direct rules (budget + 1) s c = Run.lift
      ((f s.rest).map (Scanned.result s.source enc c)) := by
  obtain ⟨q, hq, hrule⟩ := hg
  cases hp.symm.trans hq
  have hrun := hrule.run hs.rest_suffix (Nat.lt_succ_self _) c
  rw [hs.leaving_rest] at hrun
  exact hrun

end Grammar.Follows

/-- The grammars of a choice, in order, and the scan of the first one that does not miss. -/
inductive Grammar.FollowAll {σ α : Type} (host : Host σ Factory) (budget : Nat) (src : Source)
    (n : Nat) (enc : α → Value) :
    List Grammar → Scan α → Prop where
  | last {g : Grammar} {f : Scan α} (hg : g.Follows host budget src n enc f) :
      FollowAll host budget src n enc [g] f
  | cons {g : Grammar} {gs : List Grammar} {f f' : Scan α} (hg : g.Follows host budget src n enc f)
      (hgs : FollowAll host budget src n enc gs f') :
        FollowAll host budget src n enc (g :: gs) (f.orElse f')

/-- The alternatives are built in order, and the choice of their rules follows the alternative of
their scans. -/
theorem Grammar.FollowAll.choice {σ α : Type} {host : Host σ Factory} {budget : Nat} {src : Source}
    {n : Nat} {enc : α → Value} {gs : List Grammar} {f : Scan α}
    (h : Grammar.FollowAll host budget src n enc gs f) :
    (Grammar.choice gs).Follows host budget src n enc f := by
  obtain ⟨p, ps, hps, hrule⟩ : ∃ p ps, Grammar.checkAll gs = .ok (p :: ps) ∧
      Rule.Follows src n enc (Rule.choice (p.toRule host budget) (Parser.toRules host budget ps))
        f := by
    induction h with
    | last hg =>
      obtain ⟨p, hp, hrule⟩ := hg
      refine ⟨p, [], ?_, hrule⟩
      rw [Grammar.checkAll, hp]
      rfl
    | cons hg _ ih =>
      obtain ⟨p, hp, hrule⟩ := hg
      obtain ⟨q, qs, hqs, hrules⟩ := ih
      refine ⟨p, q :: qs, ?_, hrule.choice_cons hrules⟩
      rw [Grammar.checkAll, hp, hqs]
      rfl
  refine ⟨.choice p ps, ?_, hrule⟩
  rw [Grammar.check, hps]
  rfl

end Descent
