import Descent.Fault
import Descent.Text.Blank
import Descent.Value
import Mathlib.Data.List.Basic

/-!
# Descent — scans of a text

A rule runs at a stream, in a context, with a budget and over a state. Many rules use none of these:
what they do is decided by the text that is left. Such a rule is a *scan*, a function from the text
that is left to an outcome, and this module is the theory of scans by themselves.

* **`Scan`** — the functions, with a combinator for each way to join rules that the theory needs.
* **`Scan.Finds` / `Scan.Misses`** — the two ways in which a scan ends; a lemma for each combinator
  says when it ends so, in terms of its parts.
* **`Scan.Repeats`** — what a loop does, without a bound: `Scan.finds_many` is the one proof about
  its fuel.
-/

namespace Descent

/-- How a scan ends: with an output or an error, and with the text that it leaves. -/
inductive Scanned (α : Type) where
  | found (x : α) (rest : Text)
  | missed (error : Value) (rest : Text)

/-- The text that is left, either way. -/
def Scanned.rest {α : Type} : Scanned α → Text
  | found _ r => r
  | missed _ r => r

/-- What a loop has found; a loop never misses. -/
def Scanned.outputs {α : Type} : Scanned (List α) → List α
  | found xs _ => xs
  | missed _ _ => []

/-- A function of the text that is left. -/
def Scan (α : Type) : Type :=
  Text → Except Fault (Scanned α)

namespace Scan

variable {α β : Type}

instance : Monad Scan where
  pure x := fun r => .ok (.found x r)
  bind f g := fun r =>
    match f r with
    | .ok (.found x r') => g x r'
    | .ok (.missed e r') => .ok (.missed e r')
    | .error fault => .error fault

/-! ## Combinators

Each is the counterpart of a way to join rules, less the stream, the context and the state. The
loops need no budget: a loop over a scan that consumes ends within the length of the text, so `many`
bounds it by that. -/

/-- A computation that reads no text. -/
def lift (x : Except Fault α) : Scan α :=
  fun r => x.map (.found · r)

/-- The scan that misses where it stands. -/
def miss (error : Value) : Scan α :=
  fun r => .ok (.missed error r)

/-- The second scan where the first one misses, at the text that the first one was given. -/
def orElse (f g : Scan α) : Scan α :=
  fun r =>
    match f r with
    | .ok (.missed _ _) => g r
    | y => y

/-- Nothing where the scan misses. -/
def optional (f : Scan α) : Scan (Option α) :=
  orElse (do return some (← f)) (pure none)

/-- The scan behind the blanks at the front. -/
def trimmed (f : Scan α) : Scan α :=
  fun r => f (r.dropWhile Text.isBlank)

/-- One unit of a class; the error may depend on the unit that stands in its place. -/
def unit (mem : Nat → Bool) (error : Option Nat → Value) : Scan Nat
  | [] => .ok (.missed (error none) [])
  | u :: r => if mem u then .ok (.found u r) else .ok (.missed (error (some u)) (u :: r))

/-- A given text. -/
def literal (t : Text) (error : Value) : Scan Unit :=
  fun r => if t.isPrefixOf r then .ok (.found () (r.drop t.length)) else .ok (.missed error r)

/-- A control character and a character that has a meaning behind it. -/
def entry (control : Nat) (meaning : Nat → Option α) (error : Value) : Scan α
  | u :: k :: r =>
    match if u = control then meaning k else none with
    | some x => .ok (.found x r)
    | none => .ok (.missed error (u :: k :: r))
  | r => .ok (.missed error r)

/-- Repetitions, as long as the scan succeeds but at most `most` of them. -/
def sweep (f : Scan α) : (most : Nat) → Scan (List α)
  | 0 => pure []
  | most + 1 => orElse (do return (← f) :: (← sweep f most)) (pure [])

/-- Any number of repetitions. No text has room for more than it has units, so that the bound is
never met. -/
def many (f : Scan α) : Scan (List α) :=
  fun r => sweep f (r.length + 1) r

/-- One repetition at least; without any, the miss is that of the first attempt. -/
def many1 (f : Scan α) : Scan (List α) := do
  return (← f) :: (← many f)

/-- Exactly `n` repetitions; with fewer, the error is made from those that there are. -/
def exactly (n : Nat) (error : List α → Value) (f : Scan α) : Scan (List α) := do
  let xs ← sweep f n
  if n ≤ xs.length then return xs else miss (error xs)

/-- Any number of items with separators between them. -/
def sepBy (separator : Scan β) (item : Scan α) : Scan (List α) :=
  orElse (do return (← item) :: (← many (do let _ ← separator; item))) (pure [])

/-! ## How scans end

A scan is at fault, finds something or misses. Faults are handed on by every combinator, so it is
the other two that the lemmas speak of: when a combinator finds something, and when it misses, in
terms of its parts. -/

/-- The scan succeeds with the output `x` and leaves `r'`. -/
def Finds (f : Scan α) (r : Text) (x : α) (r' : Text) : Prop :=
  f r = .ok (.found x r')

/-- The scan misses, with whatever error and wherever it then stands. -/
def Misses (f : Scan α) (r : Text) : Prop :=
  ∃ e r', f r = .ok (.missed e r')

variable {f g : Scan α} {r r' : Text} {x : α}

/-- The two ends exclude each other, since a scan is a function. -/
theorem Finds.not_misses (h : f.Finds r x r') : ¬ f.Misses r := by
  rintro ⟨e, r₁, he⟩
  cases h.symm.trans he

/-- A scan that reads nothing finds its value where it stands, and nothing else. -/
@[simp]
theorem finds_pure {y : α} : (pure y : Scan α).Finds r x r' ↔ x = y ∧ r' = r := by
  constructor
  · intro h
    cases h
    exact ⟨rfl, rfl⟩
  · rintro ⟨rfl, rfl⟩
    rfl

/-- A step of a sequence: what the first scan ended in decides how it goes on. -/
theorem bind_apply {k : α → Scan β} :
    (f >>= k) r = match f r with
      | .ok (.found x r') => k x r'
      | .ok (.missed e r') => .ok (.missed e r')
      | .error fault => .error fault :=
  rfl

/-- A sequence finds what the second scan finds behind something that the first one found. -/
@[simp]
theorem finds_bind {k : α → Scan β} {y : β} :
    (f >>= k).Finds r y r' ↔ ∃ x r₁, f.Finds r x r₁ ∧ (k x).Finds r₁ y r' := by
  constructor
  · intro h
    rw [Finds, bind_apply] at h
    split at h
    · next x r₁ hf => exact ⟨x, r₁, hf, h⟩
    · cases h
    · cases h
  · rintro ⟨x, r₁, hf, hk⟩
    rw [Finds, bind_apply, hf]
    exact hk

/-- A sequence misses where either of its parts does, the second one behind what was found. -/
theorem misses_bind {k : α → Scan β} :
    (f >>= k).Misses r ↔ f.Misses r ∨ ∃ x r₁, f.Finds r x r₁ ∧ (k x).Misses r₁ := by
  constructor
  · rintro ⟨e, r', h⟩
    rw [bind_apply] at h
    split at h
    · next x r₁ hf => exact .inr ⟨x, r₁, hf, e, r', h⟩
    · next e₁ r₁ hf => exact .inl ⟨e₁, r₁, hf⟩
    · cases h
  · rintro (⟨e, r', hf⟩ | ⟨x, r₁, hf, e, r', hk⟩)
    · exact ⟨e, r', by rw [bind_apply, hf]⟩
    · exact ⟨e, r', by rw [bind_apply, hf]; exact hk⟩

theorem not_misses_pure {y : α} : ¬ (pure y : Scan α).Misses r :=
  Finds.not_misses (finds_pure.mpr ⟨rfl, rfl⟩)

/-- A scan that goes on without ever missing misses where its first part does. -/
theorem misses_bind_of_total {k : α → Scan β} (hk : ∀ x r, ¬ (k x).Misses r) :
    (f >>= k).Misses r ↔ f.Misses r := by
  rw [misses_bind]
  refine ⟨fun h => ?_, .inl⟩
  rcases h with h | ⟨x, r₁, -, h⟩
  · exact h
  · exact absurd h (hk x r₁)

/-- A computation that is lifted finds its value, and is at fault where there is none. -/
@[simp]
theorem finds_lift {y : Except Fault α} : (lift y).Finds r x r' ↔ y = .ok x ∧ r' = r := by
  cases y with
  | error fault => exact ⟨nofun, nofun⟩
  | ok y =>
    constructor
    · intro h
      cases h
      exact ⟨rfl, rfl⟩
    · rintro ⟨h, rfl⟩
      cases h
      rfl

/-- An alternative is only taken where the scan before it missed; a fault keeps it from being
tried. -/
theorem finds_orElse :
    (orElse f g).Finds r x r' ↔ f.Finds r x r' ∨ f.Misses r ∧ g.Finds r x r' := by
  rw [Finds, orElse]
  constructor
  · intro h
    split at h
    · next e r₁ hf => exact .inr ⟨⟨e, r₁, hf⟩, h⟩
    · exact .inl h
  · rintro (hf | ⟨⟨e, r₁, hf⟩, hg⟩)
    · rw [hf]
    · rw [hf]
      exact hg

/-- All the alternatives have to miss. -/
theorem misses_orElse : (orElse f g).Misses r ↔ f.Misses r ∧ g.Misses r := by
  constructor
  · rintro ⟨e, r', h⟩
    rw [orElse] at h
    split at h
    · next e₁ r₁ hf => exact ⟨⟨e₁, r₁, hf⟩, e, r', h⟩
    · next hne => exact absurd h (hne e r')
  · rintro ⟨⟨e₁, r₁, hf⟩, e, r', hg⟩
    exact ⟨e, r', by rw [orElse, hf]; exact hg⟩

/-- Blanks at the front are no part of what is found. -/
@[simp]
theorem finds_trimmed : f.trimmed.Finds r x r' ↔ f.Finds (r.dropWhile Text.isBlank) x r' :=
  Iff.rfl

/-- Blanks at the front do not keep a scan from missing either. -/
@[simp]
theorem misses_trimmed : f.trimmed.Misses r ↔ f.Misses (r.dropWhile Text.isBlank) :=
  Iff.rfl

/-- A unit is found where the text begins with a member of the class, and it alone is read. -/
@[simp]
theorem finds_unit {mem : Nat → Bool} {error : Option Nat → Value} {u : Nat} :
    (unit mem error).Finds r u r' ↔ r = u :: r' ∧ mem u = true := by
  cases r with
  | nil => exact ⟨nofun, nofun⟩
  | cons v r =>
    rw [Finds, unit]
    split
    · next hv =>
      constructor
      · intro h
        cases h
        exact ⟨rfl, hv⟩
      · rintro ⟨h, _⟩
        cases h
        rfl
    · next hv =>
      refine ⟨nofun, ?_⟩
      rintro ⟨h, hu⟩
      cases h
      exact absurd hu hv

/-- A unit is missed at the end of the text and in front of any unit that is no member. -/
theorem misses_unit {mem : Nat → Bool} {error : Option Nat → Value} :
    (unit mem error).Misses r ↔ ∀ u ∈ r.head?, mem u = false := by
  cases r with
  | nil => exact ⟨fun _ => nofun, fun _ => ⟨_, _, rfl⟩⟩
  | cons v r =>
    constructor
    · rintro ⟨e, r', h⟩ u hu
      cases hu
      rw [unit] at h
      split at h
      · cases h
      · next hv => exact Bool.eq_false_iff.mpr hv
    · intro h
      refine ⟨error (some v), v :: r, ?_⟩
      rw [unit, h v rfl]
      rfl

/-- A given text is found where the text begins with it. -/
@[simp]
theorem finds_literal {t : Text} {error : Value} {y : Unit} :
    (literal t error).Finds r y r' ↔ r = t ++ r' := by
  rw [Finds, literal]
  constructor
  · intro h
    split at h
    · next ht =>
      obtain ⟨r₁, rfl⟩ := List.isPrefixOf_iff_prefix.mp ht
      cases h
      rw [List.drop_left]
    · cases h
  · rintro rfl
    rw [if_pos (List.isPrefixOf_iff_prefix.mpr (List.prefix_append t r')), List.drop_left]

/-- A given text is missed wherever the text does not begin with it, be it too short or
different. -/
theorem misses_literal {t : Text} {error : Value} : (literal t error).Misses r ↔ ¬ t <+: r := by
  rw [← List.isPrefixOf_iff_prefix]
  constructor
  · rintro ⟨e, r', h⟩ ht
    rw [literal, if_pos ht] at h
    cases h
  · intro h
    exact ⟨error, r, by rw [literal, if_neg h]⟩

/-- An entry is found where the control character stands in front of one that has a meaning. -/
@[simp]
theorem finds_entry {control : Nat} {meaning : Nat → Option α} {error : Value} :
    (entry control meaning error).Finds r x r' ↔ ∃ k, r = control :: k :: r' ∧
      meaning k = some x := by
  constructor
  · intro h
    rw [Finds, entry.eq_def] at h
    split at h
    · next u k r₁ =>
      split at h
      · next y hy =>
        cases h
        obtain ⟨rfl, hk⟩ : u = control ∧ meaning k = some x := by simpa using hy
        exact ⟨k, rfl, hk⟩
      · cases h
    · cases h
  · rintro ⟨k, rfl, hk⟩
    simp [Finds, entry, hk]

/-- An entry is missed where no character with a meaning stands behind the control character. -/
theorem misses_entry {control : Nat} {meaning : Nat → Option α} {error : Value} :
    (entry control meaning error).Misses r ↔ ∀ k r', r = control :: k :: r' → meaning k = none := by
  constructor
  · rintro ⟨e, r₁, h⟩ k r' rfl
    rw [entry, if_pos rfl] at h
    cases hk : meaning k with
    | none => rfl
    | some x =>
      rw [hk] at h
      cases h
  · intro h
    rw [Misses, entry.eq_def]
    split
    · next u k r₁ =>
      -- whether it is another character or one without a meaning, nothing is found
      have hnone : (if u = control then meaning k else none) = none := by
        split
        · next hu => exact h k r₁ (by rw [hu])
        · rfl
      rw [hnone]
      exact ⟨_, _, rfl⟩
    · exact ⟨_, _, rfl⟩

/-! ## Where scans end

Two facts are needed of every scan that stands in a loop or in front of a recursive one: that it
goes forward in the text, and that its successes use some of it up. -/

/-- The text that is left, on success as on failure, is a last part of the text that there was. -/
def Forward (f : Scan α) : Prop :=
  ∀ ⦃r y⦄, f r = .ok y → y.rest <:+ r

/-- A success uses up some of the text. -/
def Consumes (f : Scan α) : Prop :=
  ∀ ⦃r x r'⦄, f.Finds r x r' → r'.length < r.length

theorem Forward.pure {y : α} : (pure y : Scan α).Forward := by
  intro r y h
  cases h
  exact List.suffix_refl r

/-- A sequence leaves an end of an end of the text. -/
theorem Forward.bind {k : α → Scan β} (hf : f.Forward) (hk : ∀ x, (k x).Forward) :
    (f >>= k).Forward := by
  intro r y h
  rw [bind_apply] at h
  split at h
  · next x r₁ hfr => exact (hk x h).trans (hf hfr)
  · next e r₁ hfr =>
    cases h
    exact hf hfr
  · cases h

theorem Forward.lift {y : Except Fault α} : (lift y).Forward := by
  intro r z h
  cases y with
  | error fault => cases h
  | ok y =>
    cases h
    exact List.suffix_refl r

theorem Forward.miss {error : Value} : (miss error : Scan α).Forward := by
  intro r y h
  cases h
  exact List.suffix_refl r

/-- The second scan begins where the first one began, so it is enough that each goes forward. -/
theorem Forward.orElse (hf : f.Forward) (hg : g.Forward) : (orElse f g).Forward := by
  intro r y h
  rw [Scan.orElse] at h
  split at h
  · exact hg h
  · exact hf h

theorem Forward.optional (hf : f.Forward) : f.optional.Forward :=
  (hf.bind fun _ => .pure).orElse .pure

/-- The blanks that are dropped lie in front of what the scan leaves. -/
theorem Forward.trimmed (hf : f.Forward) : f.trimmed.Forward :=
  fun _ _ h => (hf h).trans (List.dropWhile_suffix Text.isBlank)

theorem Forward.unit {mem : Nat → Bool} {error : Option Nat → Value} :
    (unit mem error).Forward := by
  intro r y h
  cases r with
  | nil =>
    cases h
    exact List.suffix_refl _
  | cons u r =>
    rw [Scan.unit] at h
    split at h
    · cases h
      exact List.suffix_cons u r
    · cases h
      exact List.suffix_refl _

theorem Forward.literal {t : Text} {error : Value} : (literal t error).Forward := by
  intro r y h
  rw [Scan.literal] at h
  split at h
  · cases h
    exact List.drop_suffix _ r
  · cases h
    exact List.suffix_refl r

theorem Forward.entry {control : Nat} {meaning : Nat → Option α} {error : Value} :
    (entry control meaning error).Forward := by
  intro r y h
  rw [Scan.entry.eq_def] at h
  split at h
  · next u k r₁ =>
    split at h
    · cases h
      exact List.suffix_append [u, k] r₁
    · cases h
      exact List.suffix_refl _
  · cases h
    exact List.suffix_refl _

/-- A loop goes on where the last repetition ended, so it goes forward as its scan does. -/
theorem Forward.sweep (hf : f.Forward) (most : Nat) : (f.sweep most).Forward := by
  induction most with
  | zero => exact .pure
  | succ most ih => exact (hf.bind fun _ => ih.bind fun _ => .pure).orElse .pure

/-- A loop without a bound is one with a bound that is large enough. -/
theorem Forward.many (hf : f.Forward) : f.many.Forward :=
  fun _ _ h => hf.sweep _ h

/-- The loop goes on behind the first repetition. -/
theorem Forward.many1 (hf : f.Forward) : f.many1.Forward :=
  hf.bind fun _ => hf.many.bind fun _ => .pure

/-- A loop that falls short misses where it has come to, which is no further back. -/
theorem Forward.exactly {n : Nat} {error : List α → Value} (hf : f.Forward) :
    (exactly n error f).Forward := by
  refine (hf.sweep n).bind fun xs => ?_
  by_cases hlen : n ≤ xs.length
  · rw [if_pos hlen]
    exact .pure
  · rw [if_neg hlen]
    exact .miss

/-- Separators and items go forward, and so does their loop. -/
theorem Forward.sepBy {separator : Scan β} (hs : separator.Forward) (hf : f.Forward) :
    (sepBy separator f).Forward :=
  (hf.bind fun _ => (hs.bind fun _ => hf).many.bind fun _ => .pure).orElse .pure

/-- It is enough that the first part reads something, as long as the second gives nothing back. -/
theorem Consumes.bind {k : α → Scan β} (hf : f.Consumes) (hk : ∀ x, (k x).Forward) :
    (f >>= k).Consumes := by
  intro r y r' h
  obtain ⟨x, r₁, hx, hy⟩ := finds_bind.mp h
  exact Nat.lt_of_le_of_lt (hk x hy).length_le (hf hx)

/-- An alternative reads something if both scans do. -/
theorem Consumes.orElse (hf : f.Consumes) (hg : g.Consumes) : (orElse f g).Consumes := by
  intro r x r' h
  rcases finds_orElse.mp h with h | ⟨-, h⟩
  · exact hf h
  · exact hg h

/-- What is read behind the blanks is still less than what there was in front of them. -/
theorem Consumes.trimmed (hf : f.Consumes) : f.trimmed.Consumes :=
  fun _ _ _ h => Nat.lt_of_lt_of_le (hf h) (List.dropWhile_suffix _).length_le

theorem Consumes.unit {mem : Nat → Bool} {error : Option Nat → Value} :
    (unit mem error).Consumes := by
  intro r u r' h
  rw [(finds_unit.mp h).1]
  exact Nat.lt_succ_self _

theorem Consumes.literal {t : Text} {error : Value} (ht : t ≠ []) : (literal t error).Consumes := by
  intro r u r' h
  have hlen := List.length_pos_iff.mpr ht
  rw [finds_literal.mp h, List.length_append]
  omega

theorem Consumes.entry {control : Nat} {meaning : Nat → Option α} {error : Value} :
    (entry control meaning error).Consumes := by
  intro r x r' h
  obtain ⟨k, rfl, -⟩ := finds_entry.mp h
  simp only [List.length_cons]
  omega

/-! ## Loops

`Repeats` is what a loop does without regard to its bound. A bound beyond the length of the text is
never reached, by induction on the bound: each turn shortens the text. -/

/-- What a loop finds, and where it ends: it goes on until its scan misses. -/
inductive Repeats (f : Scan α) : Text → List α → Text → Prop where
  | stop {r : Text} (h : f.Misses r) : Repeats f r [] r
  | step {r r₁ r' : Text} {x : α} {xs : List α} (h : f.Finds r x r₁) (hrest : Repeats f r₁ xs r') :
      Repeats f r (x :: xs) r'

/-- A loop without a single repetition has found an empty list. -/
theorem not_misses_sweep {most : Nat} : ¬ (f.sweep most).Misses r := by
  cases most with
  | zero => exact not_misses_pure
  | succ most => exact fun h => not_misses_pure (misses_orElse.mp h).2

/-- A loop is at fault or finds a list. -/
theorem sweep_cases (f : Scan α) (most : Nat) (r : Text) :
    (∃ fault, f.sweep most r = .error fault) ∨ ∃ xs r', f.sweep most r = .ok (.found xs r') := by
  cases hsweep : f.sweep most r with
  | error fault => exact .inl ⟨fault, rfl⟩
  | ok y =>
    cases y with
    | found xs r' => exact .inr ⟨xs, r', rfl⟩
    | missed e r' => exact absurd ⟨e, r', hsweep⟩ not_misses_sweep

/-- One turn of a loop. -/
theorem sweep_succ_apply {most : Nat} :
    f.sweep (most + 1) r = match f r with
      | .ok (.found x r₁) => (f.sweep most r₁).map fun y => .found (x :: y.outputs) y.rest
      | .ok (.missed _ _) => .ok (.found [] r)
      | .error fault => .error fault := by
  rw [sweep, orElse, bind_apply]
  cases f r with
  | error fault => rfl
  | ok y =>
    cases y with
    | missed e r₁ => rfl
    | found x r₁ =>
      -- the rest of the loop does not miss, so the alternative is not reached
      simp only [bind_apply]
      rcases f.sweep_cases most r₁ with ⟨fault, hsweep⟩ | ⟨xs, r₂, hsweep⟩
      · rw [hsweep]
        rfl
      · rw [hsweep]
        rfl

/-- A list is found where its head is, and its tail behind it. -/
theorem finds_cons {rest : Scan (List α)} {xs : List α} :
    (do return (← f) :: (← rest) : Scan (List α)).Finds r xs r' ↔
      ∃ x r₁ ys, f.Finds r x r₁ ∧ rest.Finds r₁ ys r' ∧ xs = x :: ys := by
  simp only [finds_bind, finds_pure]
  constructor
  · rintro ⟨x, r₁, hx, ys, _, hys, rfl, rfl⟩
    exact ⟨x, r₁, ys, hx, hys, rfl⟩
  · rintro ⟨x, r₁, ys, hx, hys, rfl⟩
    exact ⟨x, r₁, hx, ys, r', hys, rfl, rfl⟩

/-- A tail that cannot miss leaves the miss to the head. -/
theorem misses_cons {rest : Scan (List α)} (hrest : ∀ r, ¬ rest.Misses r) :
    (do return (← f) :: (← rest) : Scan (List α)).Misses r ↔ f.Misses r :=
  misses_bind_of_total fun _ r₁ h =>
    hrest r₁ ((misses_bind_of_total fun _ _ => not_misses_pure).mp h)

/-- One turn of a loop: an item and what follows, or nothing where there is no item. -/
theorem finds_cons_orElse_nil {rest : Scan (List α)} (hrest : ∀ r, ¬ rest.Misses r) {xs : List α} :
    (orElse (do return (← f) :: (← rest)) (pure [])).Finds r xs r' ↔
      (∃ x r₁ ys, f.Finds r x r₁ ∧ rest.Finds r₁ ys r' ∧ xs = x :: ys) ∨ f.Misses r ∧
        xs = [] ∧ r' = r := by
  rw [finds_orElse, finds_cons, misses_cons hrest, finds_pure]

/-- A turn of a loop: one repetition and the loop behind it, or a miss that ends it. -/
theorem finds_sweep_succ {most : Nat} {xs : List α} :
    (f.sweep (most + 1)).Finds r xs r' ↔
      (∃ x r₁ ys, f.Finds r x r₁ ∧ (f.sweep most).Finds r₁ ys r' ∧ xs = x :: ys) ∨ f.Misses r ∧
        xs = [] ∧ r' = r :=
  finds_cons_orElse_nil fun _ => not_misses_sweep

/-- A loop over a scan that consumes never runs into its bound, if that exceeds the length of the
text. -/
theorem finds_sweep_iff_repeats (hf : f.Consumes) {most : Nat} {xs : List α}
    (hmost : r.length < most) :
    (f.sweep most).Finds r xs r' ↔ f.Repeats r xs r' := by
  induction most generalizing r xs with
  | zero => omega
  | succ most ih =>
    rw [finds_sweep_succ]
    constructor
    · rintro (⟨x, r₁, ys, hx, hys, rfl⟩ | ⟨hmiss, rfl, rfl⟩)
      · -- the text behind the item is shorter, so the smaller bound still exceeds it
        have hlen := hf hx
        exact .step hx ((ih (by omega)).mp hys)
      · exact .stop hmiss
    · intro h
      cases h with
      | stop hmiss => exact .inr ⟨hmiss, rfl, rfl⟩
      | step hx hrest =>
        have hlen := hf hx
        exact .inl ⟨_, _, _, hx, (ih (by omega)).mpr hrest, rfl⟩

/-- A scan that reads something each time is repeated until it misses: the bound of the loop is
never what ends it. -/
theorem finds_many (hf : f.Consumes) {xs : List α} : f.many.Finds r xs r' ↔ f.Repeats r xs r' :=
  finds_sweep_iff_repeats hf (Nat.lt_succ_self _)

/-- A loop without a bound cannot miss, since no repetition is as good as some. -/
theorem not_misses_many : ¬ f.many.Misses r :=
  not_misses_sweep

theorem finds_many1 (hf : f.Consumes) {xs : List α} :
    f.many1.Finds r xs r' ↔ ∃ x r₁ ys, f.Finds r x r₁ ∧ f.Repeats r₁ ys r' ∧ xs = x :: ys := by
  rw [many1, finds_cons]
  simp only [finds_many hf]

/-- A list with separators is an item and a loop over a separator with an item, or a first item that
is missed. -/
theorem finds_sepBy {separator : Scan β} (hs : separator.Consumes) (hf : f.Forward) {xs : List α} :
    (sepBy separator f).Finds r xs r' ↔
      (∃ x r₁ ys, f.Finds r x r₁ ∧ (do let _ ← separator; f : Scan α).Repeats r₁ ys r' ∧
        xs = x :: ys) ∨
      f.Misses r ∧ xs = [] ∧ r' = r := by
  rw [sepBy, finds_cons_orElse_nil fun _ => not_misses_many]
  simp only [finds_many (hs.bind fun _ => hf)]

theorem finds_optional {o : Option α} :
    f.optional.Finds r o r' ↔ (∃ x, f.Finds r x r' ∧ o = some x) ∨ f.Misses r ∧
      o = none ∧ r' = r := by
  rw [optional, finds_orElse, misses_bind_of_total fun _ _ => not_misses_pure, finds_pure]
  refine or_congr_left ?_
  simp only [finds_bind, finds_pure]
  constructor
  · rintro ⟨x, _, hx, rfl, rfl⟩
    exact ⟨x, hx, rfl⟩
  · rintro ⟨x, hx, rfl⟩
    exact ⟨x, r', hx, rfl, rfl⟩

theorem misses_many1 : f.many1.Misses r ↔ f.Misses r :=
  misses_cons fun _ => not_misses_many

/-! ## Loops over single units -/

section

variable {mem : Nat → Bool} {error : Option Nat → Value} {us : List Nat}

/-- A loop over units of a class takes the longest run of them. -/
theorem repeats_unit :
    (unit mem error).Repeats r us r' ↔
      r = us ++ r' ∧ (∀ u ∈ us, mem u = true) ∧ ∀ u ∈ r'.head?, mem u = false := by
  constructor
  · intro h
    induction h with
    | stop h => exact ⟨rfl, nofun, misses_unit.mp h⟩
    | step h _ ih =>
      obtain ⟨rfl, hu⟩ := finds_unit.mp h
      obtain ⟨rfl, hall, hstop⟩ := ih
      exact ⟨rfl, List.forall_mem_cons.mpr ⟨hu, hall⟩, hstop⟩
  · -- every unit of the run is taken, and the unit behind the run stops the loop
    rintro ⟨rfl, hall, hstop⟩
    induction us with
    | nil => exact .stop (misses_unit.mpr hstop)
    | cons u us ih =>
      obtain ⟨hu, hall⟩ := List.forall_mem_cons.mp hall
      exact .step (finds_unit.mpr ⟨rfl, hu⟩) (ih hall)

/-- A loop over units that uses up its bound has found just as many members of the class. -/
theorem finds_sweep_unit {most : Nat} :
    (sweep (unit mem error) most).Finds r us r' ∧ most ≤ us.length ↔
      r = us ++ r' ∧ us.length = most ∧ ∀ u ∈ us, mem u = true := by
  induction most generalizing r us with
  | zero =>
    show (pure [] : Scan (List Nat)).Finds r us r' ∧ _ ↔ _
    rw [finds_pure, List.length_eq_zero_iff]
    constructor
    · rintro ⟨⟨rfl, rfl⟩, -⟩
      exact ⟨rfl, rfl, nofun⟩
    · rintro ⟨rfl, rfl, -⟩
      exact ⟨⟨rfl, rfl⟩, Nat.le_refl 0⟩
  | succ most ih =>
    rw [finds_sweep_succ]
    -- a turn takes the first unit, and the others are left to the loop behind it
    constructor
    · rintro ⟨⟨u, r₁, us, hu, hus, rfl⟩ | ⟨-, rfl, -⟩, hlen⟩
      · obtain ⟨rfl, hmem⟩ := finds_unit.mp hu
        obtain ⟨rfl, hlen, hall⟩ := ih.mp ⟨hus, Nat.le_of_succ_le_succ hlen⟩
        exact ⟨rfl, congrArg (· + 1) hlen, List.forall_mem_cons.mpr ⟨hmem, hall⟩⟩
      · exact absurd hlen (Nat.not_succ_le_zero most)
    · rintro ⟨rfl, hlen, hall⟩
      cases us with
      | nil => cases hlen
      | cons u us =>
        obtain ⟨hmem, hall⟩ := List.forall_mem_cons.mp hall
        obtain ⟨hus, -⟩ := ih.mpr ⟨rfl, Nat.succ.inj hlen, hall⟩
        exact ⟨.inl ⟨u, us ++ r', us, finds_unit.mpr ⟨rfl, hmem⟩, hus, rfl⟩, Nat.le_of_eq hlen.symm⟩

/-- Exactly so many units of a class. -/
theorem finds_exactly_unit {n : Nat} {short : List Nat → Value} :
    (exactly n short (unit mem error)).Finds r us r' ↔ r = us ++ r' ∧ us.length = n ∧
      ∀ u ∈ us, mem u = true := by
  rw [← finds_sweep_unit, exactly, finds_bind]
  constructor
  · rintro ⟨xs, r₁, hxs, h⟩
    by_cases hlen : n ≤ xs.length
    · rw [if_pos hlen] at h
      obtain ⟨rfl, rfl⟩ := finds_pure.mp h
      exact ⟨hxs, hlen⟩
    · rw [if_neg hlen] at h
      cases h
  · rintro ⟨hus, hlen⟩
    refine ⟨us, r', hus, ?_⟩
    rw [if_pos hlen]
    exact finds_pure.mpr ⟨rfl, rfl⟩

end

end Scan

end Descent
