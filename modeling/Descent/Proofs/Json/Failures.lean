import Descent.Proofs.Json.Exact

/-!
# Descent — where the JSON parser fails

A choice reports the failure of its last alternative, which for values is the array, and an array
gives up an item that fails together with the comma before it. So whatever is wrong inside an item,
the failure is one of the outermost array: that no closing bracket stands behind the items which
could be read.

* **`Sequence`** — values that the parser reads one after the other, with commas between them.
* **`Sequence.unique`, `Sequence.take`** — there is one sequence of each length, up to a longest
  one.
* **`scanArray_missed`** — where the scan for arrays misses.
* **`value_run_failed`** — where the parser for values fails.
-/

namespace Descent

/-- The place behind the blanks that are ahead. -/
def Stream.pastBlanks (s : Stream) : Stream :=
  s.advance (s.rest.takeWhile Text.isBlank).length

namespace Scan

/-! ## How a scan misses -/

variable {α β : Type} {f g : Scan α} {r r' : Text} {e : Value}

/-- In a sequence either part may miss, the second behind what the first has found. -/
theorem missed_bind {k : α → Scan β} :
    (f >>= k) r = .ok (.missed e r') ↔
      f r = .ok (.missed e r') ∨ ∃ x r₁, f.Finds r x r₁ ∧ k x r₁ = .ok (.missed e r') := by
  rw [bind_apply]
  constructor
  · intro h
    split at h
    · next x r₁ hf => exact .inr ⟨x, r₁, hf, h⟩
    · next hf =>
      cases h
      exact .inl hf
    · cases h
  · rintro (hf | ⟨x, r₁, hf, hk⟩)
    · rw [hf]
    · rw [hf]
      exact hk

/-- The failure that counts is that of the last alternative. -/
theorem missed_orElse :
    (orElse f g) r = .ok (.missed e r') ↔ f.Misses r ∧ g r = .ok (.missed e r') := by
  rw [orElse]
  constructor
  · intro h
    split at h
    · next e₁ r₁ hf => exact ⟨⟨e₁, r₁, hf⟩, h⟩
    · next hne => exact absurd h (hne e r')
  · rintro ⟨⟨e₁, r₁, hf⟩, hg⟩
    rw [hf]
    exact hg

/-- No items are a list of items as well. -/
theorem not_misses_sepBy {separator : Scan β} : ¬ (sepBy separator f).Misses r :=
  fun h => not_misses_pure (misses_orElse.mp h).2

end Scan

namespace Json

variable {r r' : Text} {e : Value}

/-- A character that is missed is missed in place, under the tag of a single character. -/
theorem scanChar_missed {u : Nat} (h : scanChar u r = .ok (.missed e r')) :
    e = .tag .char ∧ r' = r ∧ r.head? ≠ some u := by
  have hhead := misses_scanChar.mp ⟨e, r', h⟩
  cases r with
  | nil =>
    cases h
    exact ⟨rfl, rfl, hhead⟩
  | cons v r =>
    rw [scanChar, Scan.unit] at h
    split at h
    · cases h
    · cases h
      exact ⟨rfl, rfl, hhead⟩

/-- An array that fails has no opening bracket, or no closing one behind its items. -/
theorem scanArray_missed {f : Scan Value} (h : scanArray f r = .ok (.missed e r')) :
    e = .tag .char ∧
      (r.head? ≠ some 91 ∧ r' = r ∨
        ∃ r₁ vs r₂, r = 91 :: r₁ ∧ (Scan.sepBy (scanChar 44).trimmed f).Finds
          (r₁.dropWhile Text.isBlank) vs r₂ ∧
          r' = r₂.dropWhile Text.isBlank ∧ r'.head? ≠ some 93) := by
  have hbrackets : scanBracketed 91 93 f r = .ok (.missed e r') := by
    rcases Scan.missed_bind.mp h with hbrackets | ⟨vs, r₁, -, hpure⟩
    · exact hbrackets
    · cases hpure
  rcases Scan.missed_bind.mp hbrackets with hmiss | ⟨_, r₁, hopening, hinside⟩
  · obtain ⟨he, hr', hhead⟩ := scanChar_missed hmiss
    exact ⟨he, .inl ⟨hhead, hr'⟩⟩
  · obtain ⟨hr, -⟩ := finds_scanChar.mp hopening
    rcases Scan.missed_bind.mp hinside with hmiss | ⟨vs, r₂, hitems, hbehind⟩
    · exact absurd ⟨e, r', hmiss⟩ Scan.not_misses_sepBy
    · rcases Scan.missed_bind.mp hbehind with hmiss | ⟨_, r₃, -, hpure⟩
      · obtain ⟨he, hr', hhead⟩ := scanChar_missed hmiss
        exact ⟨he, .inr ⟨r₁, vs, r₂, hr, hitems, hr', by rw [hr']; exact hhead⟩⟩
      · cases hpure

/-- The alternatives of a value come down to the last one, an array, which tells the failure. -/
theorem scanBare_missed {f : Scan Value} (h : scanBare f r = .ok (.missed e r')) :
    scanArray f r = .ok (.missed e r') := by
  obtain ⟨-, h⟩ := Scan.missed_orElse.mp h
  obtain ⟨-, h⟩ := Scan.missed_orElse.mp h
  obtain ⟨-, h⟩ := Scan.missed_orElse.mp h
  obtain ⟨-, h⟩ := Scan.missed_orElse.mp h
  exact (Scan.missed_orElse.mp h).2

/-! ## Values one after the other

What a parser reads at a place is determined by the place. So a sequence is determined by its
length, and it can be cut anywhere. -/

/-- The parser succeeds at the stream, with the output `v`, and ends at `u`. -/
def Reads (p : Parser Factory) (budget : Nat) (c : Value) (log : Log) (s : Stream) (v : Value)
    (u : Stream) : Prop :=
  p.direct rules budget s c log = (.ok (.ok u v c), log)

/-- The parser fails at the stream. -/
def Rejects (p : Parser Factory) (budget : Nat) (c : Value) (log : Log) (s : Stream) : Prop :=
  ∃ u e, p.direct rules budget s c log = (.ok (.err u e c), log)

/-- Where the next value of a sequence is looked for: the first one right where the sequence starts,
and any other one behind a comma. -/
def nextPlace : List Value → Stream → Option Stream
  | [], last => some last
  | _ :: _, last =>
    if last.pastBlanks.rest.head? = some 44 then some (last.pastBlanks.advance 1) else none

/-- Values that the parser reads one after the other, with commas between them, and where the last
one ends. -/
inductive Sequence (p : Parser Factory) (budget : Nat) (c : Value) (log : Log) (start : Stream) :
    List Value → Stream → Prop where
  | nil : Sequence p budget c log start [] start
  | snoc {vs : List Value} {last k u : Stream} {v : Value}
      (h : Sequence p budget c log start vs last)
      (hk : nextPlace vs last = some k) (hv : Reads p budget c log k v u) :
        Sequence p budget c log start (vs ++ [v]) u

/-- Nothing is read where the next value is looked for. -/
def Stops (p : Parser Factory) (budget : Nat) (c : Value) (log : Log) (vs : List Value)
    (last : Stream) : Prop :=
  ∀ k, nextPlace vs last = some k → Rejects p budget c log k

section

variable {p : Parser Factory} {budget : Nat} {c : Value} {log : Log}
  {start last last' k u u' : Stream} {vs vs' : List Value} {v v' : Value}

theorem Reads.unique (h : Reads p budget c log k v u) (h' : Reads p budget c log k v' u') :
    v = v' ∧ u = u' := by
  cases h.symm.trans h'
  exact ⟨rfl, rfl⟩

theorem Reads.not_rejects (h : Reads p budget c log k v u) : ¬ Rejects p budget c log k := by
  rintro ⟨u', e, h'⟩
  cases h.symm.trans h'

/-- A sequence is its last value, and a shorter one in front. -/
theorem Sequence.of_length_succ {n : Nat} (h : Sequence p budget c log start vs last)
    (hlen : vs.length = n + 1) :
    ∃ vs₀ last₀ k v, Sequence p budget c log start vs₀ last₀ ∧ vs₀.length = n ∧
      nextPlace vs₀ last₀ = some k ∧ Reads p budget c log k v last ∧ vs = vs₀ ++ [v] := by
  cases h with
  | nil => cases hlen
  | @snoc vs₀ last₀ k _ v h hk hv =>
    rw [List.length_append, List.length_singleton] at hlen
    exact ⟨vs₀, last₀, k, v, h, Nat.succ.inj hlen, hk, hv, rfl⟩

/-- Sequences of one length are the same, by induction on the length. -/
theorem Sequence.unique (h : Sequence p budget c log start vs last)
    (h' : Sequence p budget c log start vs' last') (hlen : vs.length = vs'.length) :
    vs = vs' ∧ last = last' := by
  induction h generalizing vs' last' with
  | nil =>
    cases h' with
    | nil => exact ⟨rfl, rfl⟩
    | snoc => simp at hlen
  | @snoc vs last k u v h hk hv ih =>
    rw [List.length_append, List.length_singleton] at hlen
    obtain ⟨vs₀, last₀, k', v', h₀, hlen₀, hk', hv', rfl⟩ := h'.of_length_succ hlen.symm
    obtain ⟨rfl, rfl⟩ := ih h₀ hlen₀.symm
    cases hk.symm.trans hk'
    obtain ⟨rfl, rfl⟩ := hv.unique hv'
    exact ⟨rfl, rfl⟩

end

/-! ## Sequences in a text

In a text, a place is the text that is left from there. Every step of a sequence goes forward, so
what a sequence has read lies before its end. -/

section

variable {src : Source} {p : Parser Factory} {depth budget : Nat} {c : Value} {log : Log}
  {vs vs' : List Value} {last last' k u : Stream} {v : Value}

/-- The blanks of the stream are those of its rest. -/
theorem pastBlanks_leaving (hr : r <:+ src.units.toList) :
    (src.leaving r).pastBlanks = src.leaving (r.dropWhile Text.isBlank) := by
  rw [Stream.pastBlanks, Source.rest_leaving hr, src.leaving_advance_blanks]

theorem offset_le_pastBlanks (s : Stream) : s.offset ≤ s.pastBlanks.offset := by
  show s.offset ≤ s.offset + _
  omega

theorem offset_leaving_le (h : r' <:+ r) : (src.leaving r).offset ≤ (src.leaving r').offset := by
  have hlen := h.length_le
  show (src.size : Int) - r.length ≤ src.size - r'.length
  omega

/-- A value is scanned behind its blanks, so they may as well be skipped before. -/
theorem scanValue_blanks (depth : Nat) (r : Text) :
    scanValue (depth + 1) (r.dropWhile Text.isBlank) = scanValue (depth + 1) r := by
  show scanBare _ ((r.dropWhile Text.isBlank).dropWhile Text.isBlank) =
      scanBare _ (r.dropWhile Text.isBlank)
  rw [List.dropWhile_idempotent]

/-- A further value is looked for behind a comma, which may stand behind blanks. -/
theorem nextPlace_leaving (hr : r <:+ src.units.toList) (hvs : vs ≠ []) :
    nextPlace vs (src.leaving r) = some k ↔ ∃ r₁, r.dropWhile Text.isBlank = 44 :: r₁ ∧
      k = src.leaving r₁ := by
  have hsuffix := (List.dropWhile_suffix Text.isBlank).trans hr
  cases vs with
  | nil => exact absurd rfl hvs
  | cons v vs =>
    -- behind a value, the next place is behind a comma
    rw [nextPlace, pastBlanks_leaving hr, Source.rest_leaving hsuffix]
    constructor
    · intro h
      split at h
      · next hhead =>
        obtain ⟨r₁, hr₁⟩ := List.head?_eq_some_iff.mp hhead
        rw [hr₁, Source.leaving_cons_advance] at h
        cases h
        exact ⟨r₁, hr₁, rfl⟩
      · cases h
    · rintro ⟨r₁, hr₁, rfl⟩
      rw [hr₁, List.head?_cons, if_pos rfl, Source.leaving_cons_advance]

/-- The next place lies in the rest of the text. -/
theorem suffix_of_nextPlace (hr : r <:+ src.units.toList)
    (hk : nextPlace vs (src.leaving r) = some k) :
    ∃ r₁, r₁ <:+ r ∧ k = src.leaving r₁ := by
  by_cases hvs : vs = []
  · subst hvs
    cases hk
    exact ⟨r, List.suffix_refl r, rfl⟩
  · obtain ⟨r₁, hr₁, rfl⟩ := (nextPlace_leaving hr hvs).mp hk
    refine ⟨r₁, ?_, rfl⟩
    have hsuffix := List.dropWhile_suffix Text.isBlank (l := r)
    rw [hr₁] at hsuffix
    exact (List.suffix_cons 44 r₁).trans hsuffix

-- the parser for values on a text, with a budget for what is shorter than the depth
variable (htext : src.kind = .text) (hp : value.check = .ok p) (hbudget : depth + 2 ≤ budget)

include htext hp hbudget

/-- The parser reads a value just where the scan finds one. -/
theorem reads_leaving_iff (hr : r <:+ src.units.toList) (hdepth : r.length < depth) :
    Reads p budget c log (src.leaving r) v u ↔ ∃ r', (scanValue depth).Finds r v r' ∧
      u = src.leaving r' := by
  rw [Reads, direct_value_result_iff htext hp hbudget hr hdepth]
  constructor
  · rintro ⟨y, hy, hresult, -⟩
    cases y with
    | missed e r' => cases hresult
    | found x r' =>
      cases hresult
      exact ⟨r', hy, rfl⟩
  · rintro ⟨r', hfound, rfl⟩
    exact ⟨_, hfound, rfl, rfl⟩

/-- Where the scan misses, the parser rejects. -/
theorem rejects_leaving (hr : r <:+ src.units.toList) (hdepth : r.length < depth)
    (h : (scanValue depth).Misses r) : Rejects p budget c log (src.leaving r) := by
  obtain ⟨e, r', h⟩ := h
  exact ⟨_, e, (direct_value_result_iff htext hp hbudget hr hdepth).mpr ⟨_, h, rfl, rfl⟩⟩

/-- What is behind a value that was read is part of the rest. -/
theorem suffix_of_reads (hr : r <:+ src.units.toList) (hdepth : r.length < depth)
    (hk : nextPlace vs (src.leaving r) = some k) (hv : Reads p budget c log k v u) :
    ∃ r', r' <:+ r ∧ u = src.leaving r' := by
  obtain ⟨r₁, hr₁, rfl⟩ := suffix_of_nextPlace hr hk
  have hlen := hr₁.length_le
  obtain ⟨r', hfound, rfl⟩ := (reads_leaving_iff htext hp hbudget (hr₁.trans hr) (by omega)).mp hv
  exact ⟨r', (forward_scanValue depth hfound).trans hr₁, rfl⟩

variable (hr : r <:+ src.units.toList) (hdepth : r.length < depth)

include hr hdepth

theorem Sequence.suffix (h : Sequence p budget c log (src.leaving r) vs last) :
    ∃ r', r' <:+ r ∧ last = src.leaving r' := by
  induction h with
  | nil => exact ⟨r, List.suffix_refl r, rfl⟩
  | snoc h hk hv ih =>
    obtain ⟨r₁, hr₁, rfl⟩ := ih
    have hlen := hr₁.length_le
    obtain ⟨r₂, hr₂, rfl⟩ := suffix_of_reads htext hp hbudget (hr₁.trans hr) (by omega) hk hv
    exact ⟨r₂, hr₂.trans hr₁, rfl⟩

/-- One value more leads further on. -/
theorem Sequence.offset_le (h : Sequence p budget c log (src.leaving r) vs last)
    (hk : nextPlace vs last = some k) (hv : Reads p budget c log k v u) :
    last.offset ≤ u.offset := by
  obtain ⟨r₁, hr₁, rfl⟩ := h.suffix htext hp hbudget hr hdepth
  have hlen := hr₁.length_le
  obtain ⟨r₂, hr₂, rfl⟩ := suffix_of_reads htext hp hbudget (hr₁.trans hr) (by omega) hk hv
  exact offset_leaving_le hr₂

/-- The first values of a sequence are a sequence, which ends no later. -/
theorem Sequence.take (h : Sequence p budget c log (src.leaving r) vs last) {n : Nat}
    (hn : n ≤ vs.length) :
    ∃ last₀, Sequence p budget c log (src.leaving r) (vs.take n) last₀ ∧
      last₀.offset ≤ last.offset := by
  induction h with
  | nil =>
    rw [List.take_nil]
    exact ⟨_, .nil, Int.le_refl _⟩
  | @snoc vs last k u v h hk hv ih =>
    by_cases hlen : n ≤ vs.length
    · obtain ⟨last₀, h₀, hle⟩ := ih hlen
      rw [List.take_append_of_le_length hlen]
      exact ⟨last₀, h₀, Int.le_trans hle (h.offset_le htext hp hbudget hr hdepth hk hv)⟩
    · rw [List.take_of_length_le (by rw [List.length_append, List.length_singleton]; omega)]
      exact ⟨u, .snoc h hk hv, Int.le_refl _⟩

/-- A sequence that stops has all others as its first parts. -/
theorem Sequence.isPrefix_of_stops (h : Sequence p budget c log (src.leaving r) vs last)
    (hstops : Stops p budget c log vs last)
    (h' : Sequence p budget c log (src.leaving r) vs' last') :
    vs' <+: vs ∧ last'.offset ≤ last.offset := by
  by_cases hlen : vs'.length ≤ vs.length
  · obtain ⟨last₀, h₀, hle⟩ := h.take htext hp hbudget hr hdepth hlen
    obtain ⟨heq, rfl⟩ := h'.unique h₀ (List.length_take_of_le hlen).symm
    exact ⟨heq ▸ List.take_prefix _ vs, hle⟩
  · -- one value more than the sequence has would be read where it stops
    have hmore : vs.length + 1 ≤ vs'.length := by omega
    obtain ⟨_, h₀, -⟩ := h'.take htext hp hbudget hr hdepth hmore
    obtain ⟨vs₁, last₁, k, v, h₁, hlen₁, hk, hv, -⟩ :=
      h₀.of_length_succ (List.length_take_of_le hmore)
    obtain ⟨rfl, rfl⟩ := h.unique h₁ hlen₁.symm
    exact absurd (hstops k hk) hv.not_rejects

/-- Where a value of the sequence is looked for, it is read and ends before the sequence does, or
the sequence stops. -/
theorem Sequence.next_cases (h : Sequence p budget c log (src.leaving r) vs last)
    (hstops : Stops p budget c log vs last) (h' : Sequence p budget c log (src.leaving r) vs' last')
    (hk : nextPlace vs' last' = some k) :
    (∃ v u, Reads p budget c log k v u ∧ u.offset ≤ last.offset) ∨ Rejects p budget c log k ∧
      last' = last := by
  have hle := (h.isPrefix_of_stops htext hp hbudget hr hdepth hstops h').1.length_le
  by_cases hlen : vs'.length = vs.length
  · obtain ⟨rfl, rfl⟩ := h'.unique h hlen
    exact .inr ⟨hstops k hk, rfl⟩
  · have hmore : vs'.length + 1 ≤ vs.length := by omega
    obtain ⟨u, h₀, hu⟩ := h.take htext hp hbudget hr hdepth hmore
    obtain ⟨vs₁, last₁, k', v, h₁, hlen₁, hk', hv, -⟩ :=
      h₀.of_length_succ (List.length_take_of_le hmore)
    obtain ⟨rfl, rfl⟩ := h'.unique h₁ hlen₁.symm
    cases hk.symm.trans hk'
    exact .inl ⟨v, u, hv, hu⟩

end

section

variable {src : Source} {p : Parser Factory} {depth budget : Nat} {c : Value} {log : Log}
  {start : Stream} {vs ys : List Value} (htext : src.kind = .text) (hp : value.check = .ok p)
  (hbudget : depth + 2 ≤ budget)

include htext hp hbudget

/-- The loop of an array reads a sequence, up to where it stops. -/
theorem Sequence.of_repeats (hitems : (scanNext (scanValue depth)).Repeats r ys r')
    (h : Sequence p budget c log start vs (src.leaving r)) (hvs : vs ≠ [])
    (hr : r <:+ src.units.toList) (hdepth : r.length < depth) :
    Sequence p budget c log start (vs ++ ys) (src.leaving r') ∧
      Stops p budget c log (vs ++ ys) (src.leaving r') := by
  induction hitems generalizing vs with
  | @stop r hmiss =>
    rw [List.append_nil]
    refine ⟨h, fun k hk => ?_⟩
    obtain ⟨r₁, hr₁, rfl⟩ := (nextPlace_leaving hr hvs).mp hk
    -- the comma is there, so it is the value behind it that is missed
    have hcomma : (scanChar 44).trimmed.Finds r 44 r₁ := finds_scanChar.mpr ⟨hr₁, rfl⟩
    have hsuffix : r₁ <:+ r := forward_scanChar 44 |>.trimmed hcomma
    have hlen := hsuffix.length_le
    rcases Scan.misses_bind.mp hmiss with hmiss | ⟨_, r₂, hcomma', hmiss⟩
    · exact absurd hmiss hcomma.not_misses
    · cases hcomma.symm.trans hcomma'
      exact rejects_leaving htext hp hbudget (hsuffix.trans hr) (by omega) hmiss
  | @step r r₁ r' x xs hx _ ih =>
    obtain ⟨w, r₂, hw, rfl, hfound⟩ := finds_scanNext.mp hx
    have hplace := (nextPlace_leaving hr hvs).mpr ⟨r₂, dropWhile_blanks_cons hw (by decide) r₂, rfl⟩
    have hsuffix : r₂ <:+ w ++ 44 :: r₂ := (List.suffix_cons 44 r₂).trans (List.suffix_append w _)
    have hforward : r₁ <:+ r₂ := forward_scanValue depth hfound
    have hlen := hsuffix.length_le
    have hlen₁ := hforward.length_le
    have hv : Reads p budget c log (src.leaving r₂) x (src.leaving r₁) :=
      (reads_leaving_iff htext hp hbudget (hsuffix.trans hr) (by omega)).mpr ⟨r₁, hfound, rfl⟩
    have hrest := ih (h.snoc hplace hv) (by simp) ((hforward.trans hsuffix).trans hr) (by omega)
    rwa [List.append_assoc, List.singleton_append] at hrest

/-- So does the scan for all items. -/
theorem Sequence.of_sepBy (hr : r <:+ src.units.toList) (hdepth : r.length < depth)
    (h : (Scan.sepBy (scanChar 44).trimmed (scanValue depth)).Finds
      (r.dropWhile Text.isBlank) vs r') :
    ∃ last, Sequence p budget c log (src.leaving r) vs last ∧ Stops p budget c log vs last ∧
      last.pastBlanks = src.leaving (r'.dropWhile Text.isBlank) := by
  obtain ⟨depth, rfl⟩ : ∃ d, depth = d + 1 := ⟨depth - 1, by omega⟩
  have hend : r' <:+ r :=
    ((forward_scanChar 44).trimmed.sepBy (forward_scanValue _) h).trans
      (List.dropWhile_suffix Text.isBlank)
  rw [Scan.finds_sepBy (consumes_scanChar 44).trimmed (forward_scanValue _)] at h
  rcases h with ⟨x, r₁, ys, hx, hys, rfl⟩ | ⟨hmiss, rfl, rfl⟩
  · -- the first value, and then the loop behind it
    rw [Scan.Finds, scanValue_blanks] at hx
    have hforward : r₁ <:+ r := forward_scanValue _ hx
    have hlen := hforward.length_le
    have hv : Reads p budget c log (src.leaving r) x (src.leaving r₁) :=
      (reads_leaving_iff htext hp hbudget hr hdepth).mpr ⟨r₁, hx, rfl⟩
    have hitems : (scanNext (scanValue (depth + 1))).Repeats r₁ ys r' := hys
    obtain ⟨h, hstops⟩ := Sequence.of_repeats htext hp hbudget hitems (Sequence.nil.snoc rfl hv)
      (List.cons_ne_nil x []) (hforward.trans hr) (by omega)
    exact ⟨src.leaving r', h, hstops, pastBlanks_leaving (hend.trans hr)⟩
  · rw [Scan.Misses, scanValue_blanks] at hmiss
    -- there is no value at all, so the empty sequence stops where it starts
    refine ⟨src.leaving r, .nil, fun k hk => ?_, ?_⟩
    · cases hk
      exact rejects_leaving htext hp hbudget hr hdepth hmiss
    · rw [pastBlanks_leaving hr, List.dropWhile_idempotent]

end

/-! ## The parser -/

/-- **Where the parser for values fails.** At any place of a text and in any context, a failure is
that of a character; the context and the log stay as they are. If the first character that is no
blank opens no array, the failure is there, so nothing is ever reported inside an object. If it
opens an array, the failure is behind the longest sequence of values that can be read from there on
and behind the blanks that follow it, at anything but a closing bracket. Wherever a value of that
array is looked for, it is read and lies before the failure, or it is rejected, and then the failure
is at the comma before it, or at the place of the first value if that is the one. -/
theorem value_run_failed {p : Parser Factory} (hp : value.check = .ok p) {s : Stream}
    (htext : s.isText = true) (hs : s.InBounds) {budget : Nat}
    (hbudget : s.rest.length + 3 ≤ budget) {c c' e : Value} {log log' : Log} {s' : Stream}
    (h : p.direct rules budget s c log = (.ok (.err s' e c'), log')) :
    e = .tag .char ∧ c' = c ∧ log' = log ∧
    (s.pastBlanks.rest.head? ≠ some 91 → s' = s.pastBlanks) ∧
    (s.pastBlanks.rest.head? = some 91 →
      ∃ vs last, Sequence p budget c log (s.pastBlanks.advance 1) vs last ∧
        (∀ vs' last', Sequence p budget c log (s.pastBlanks.advance 1) vs' last' →
          vs' <+: vs ∧ last'.offset ≤ last.offset) ∧
        s' = last.pastBlanks ∧ s'.rest.head? ≠ some 93 ∧
        ∀ vs' last' k, Sequence p budget c log (s.pastBlanks.advance 1) vs' last' →
          nextPlace vs' last' = some k →
          (∃ v u, Reads p budget c log k v u ∧ u.offset ≤ s'.offset) ∨
            Rejects p budget c log k ∧ s' = last'.pastBlanks) := by
  have hkind : s.source.kind = .text := of_decide_eq_true htext
  have hr := hs.rest_suffix
  have hskipped := (List.dropWhile_suffix Text.isBlank).trans hr
  have hblanks := pastBlanks_leaving hr
  rw [← hs.leaving_rest] at h
  rw [hs.leaving_rest] at hblanks
  obtain ⟨y, hy, hresult, rfl⟩ :=
    (direct_value_result_iff hkind hp hbudget hr (Nat.lt_succ_self _)).mp h
  cases y with
  | found x r' => cases hresult
  | missed e r' =>
    cases hresult
    rw [hblanks, Source.rest_leaving hskipped]
    obtain ⟨he, ⟨hhead, rfl⟩ | ⟨r₁, vs, r₂, hr₁, hitems, hr', hhead⟩⟩ :=
      scanArray_missed (scanBare_missed hy)
    · -- without an opening bracket nothing was read but blanks
      exact ⟨he, rfl, rfl, fun _ => rfl, fun hopening => absurd hopening hhead⟩
    · -- behind the opening bracket, the text is shorter than the one that the scan started from
      rw [hr₁] at hskipped ⊢
      have hinside : r₁ <:+ s.source.units.toList := (List.suffix_cons 91 r₁).trans hskipped
      have hlen : (s.rest.dropWhile Text.isBlank).length ≤ s.rest.length :=
        (List.dropWhile_suffix _).length_le
      rw [hr₁, List.length_cons] at hlen
      have hdepth : s.rest.length + 2 ≤ budget := by omega
      obtain ⟨last, hseq, hstops, hlast⟩ := Sequence.of_sepBy hkind hp hdepth hinside hlen hitems
      refine ⟨he, rfl, rfl, fun hopening => absurd rfl hopening, fun _ => ?_⟩
      have hfailure : r' <:+ s.source.units.toList := (forward_scanValue _ hy).trans hr
      have hend : (s.source.leaving r').rest.head? ≠ some 93 := by
        rw [Source.rest_leaving hfailure]
        exact hhead
      rw [← hr'] at hlast
      rw [Source.leaving_cons_advance, ← hlast]
      rw [← hlast] at hend
      refine ⟨vs, last, hseq,
        fun vs' last' h' => hseq.isPrefix_of_stops hkind hp hdepth hinside hlen hstops h', rfl,
        hend, fun vs' last' k h' hk => ?_⟩
      -- what stands at the next place has been read, or it is where the scan has stopped
      rcases hseq.next_cases hkind hp hdepth hinside hlen hstops h'
        hk with ⟨v, u, hv, hu⟩ | ⟨hrejects, rfl⟩
      · exact .inl ⟨v, u, hv, Int.le_trans hu (offset_le_pastBlanks last)⟩
      · exact .inr ⟨hrejects, rfl⟩

/-- In `[1, [2, x]]` what is wrong stands in the inner array, and the failure is at the comma before
that. -/
theorem value_run_failed_nested :
    let src : Source := ⟨0, .text, #[91, 49, 44, 32, 91, 50, 44, 32, 120, 93, 93]⟩
    ∃ p, value.check = .ok p ∧ p.direct rules 14 ⟨src, 0⟩ .null #[] =
      (.ok (.err ⟨src, 2⟩ (.tag .char) .null), #[]) ∧
      ∃ vs last, Sequence p 14 .null #[] ⟨src, 1⟩ vs last ∧ last.pastBlanks = ⟨src, 2⟩ := by
  intro src
  have hrun : Parser.direct rules 14 (.deferred (.named valueName)) ⟨src, 0⟩ .null #[]
      = (.ok (.err ⟨src, 2⟩ (.tag .char) .null), #[]) := by rfl
  refine ⟨_, rfl, hrun, ?_⟩
  have hinside : (Stream.mk src 0).pastBlanks.advance 1 = ⟨src, 1⟩ := by decide
  obtain ⟨-, -, -, -, harray⟩ := value_run_failed rfl rfl ⟨by decide, by decide⟩ (by decide) hrun
  obtain ⟨vs, last, hseq, -, hlast, -, -⟩ := harray (by decide)
  rw [hinside] at hseq
  exact ⟨vs, last, hseq, hlast.symm⟩

end Json

end Descent
