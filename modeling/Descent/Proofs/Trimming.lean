import Mathlib.Data.List.TakeWhile
import Descent.Proofs.Follows
import Descent.Proofs.Matching

/-!
# Descent — skipping blanks and repeating a blank

A trimmed parser looks ahead for the first unit that is no blank and advances once. The same can be
put together from smaller parsers: a blank, repeated as often as it can be, before the parser. The
two agree at every stream inside its source.

* **`Stream.leadingBlanks`** — what is skipped. Both ways are measured by it.
* **`Rule.many_blank`** — the repetition takes just these blanks.
* **`Parser.trimmed_iff_prefixed`** — the statement for parsers, with what follows from it for
  trimming twice and for bytes.
-/

namespace Descent

/-! ## Leading blanks -/

/-- The blanks at the front of what is left. Bytes have none. -/
def Stream.leadingBlanks (s : Stream) : Text :=
  if s.isText then s.rest.takeWhile Text.isBlank else []

namespace Stream

variable {s : Stream}

/-- In a text the leading blanks are those in front of the rest. -/
theorem leadingBlanks_text (htext : s.isText = true) :
    s.leadingBlanks = s.rest.takeWhile Text.isBlank :=
  if_pos htext

/-- Among bytes there are no blanks. -/
theorem leadingBlanks_bytes (htext : ¬ s.isText = true) : s.leadingBlanks = [] :=
  if_neg htext

theorem advance_nil (s : Stream) : s.advance ([] : Text).length = s := by
  show (⟨s.source, s.offset + 0⟩ : Stream) = s
  rw [Int.add_zero]

/-- Skipping blanks advances over the leading ones. -/
theorem InBounds.skipBlanks_eq_advance (hs : s.InBounds) :
    s.skipBlanks = .ok (s.advance s.leadingBlanks.length) := by
  by_cases htext : s.isText = true
  · rw [hs.skipBlanks_eq htext, leadingBlanks_text htext]
  · rw [skipBlanks, if_neg htext, leadingBlanks_bytes htext, advance_nil]
    rfl

theorem leadingBlanks_le (s : Stream) : s.leadingBlanks.length ≤ s.rest.length := by
  by_cases htext : s.isText = true
  · rw [leadingBlanks_text htext]
    exact (List.takeWhile_prefix _).length_le
  · rw [leadingBlanks_bytes htext]
    exact Nat.zero_le _

/-- In a text, the leading blanks are what dropping blanks drops. -/
theorem InBounds.advance_leadingBlanks (hs : s.InBounds) (htext : s.isText = true) :
    s.advance s.leadingBlanks.length = s.source.leaving (s.rest.dropWhile Text.isBlank) := by
  have hcut : s.rest = s.rest.takeWhile Text.isBlank ++ s.rest.dropWhile Text.isBlank :=
    List.takeWhile_append_dropWhile.symm
  rw [leadingBlanks_text htext, hs.advance_eq_leaving hcut]

/-- Behind the blanks stands no further one. -/
theorem not_blank_of_mem_head? {t : Text} {u : Nat} (hu : u ∈ (t.dropWhile Text.isBlank).head?) :
    Text.isBlank u = false := by
  have hhead := List.head?_dropWhile_not Text.isBlank t
  rw [Option.mem_def.mp hu] at hhead
  exact hhead

/-- No blank stands behind the leading ones. -/
theorem InBounds.leadingBlanks_advance (hs : s.InBounds) :
    (s.advance s.leadingBlanks.length).leadingBlanks = [] := by
  by_cases htext : s.isText = true
  · have hsuffix : s.rest.dropWhile Text.isBlank <:+ s.source.units.toList :=
      (List.dropWhile_suffix _).trans hs.rest_suffix
    rw [hs.advance_leadingBlanks htext]
    show (if s.isText then (s.source.leaving _).rest.takeWhile Text.isBlank else []) = []
    rw [if_pos htext, Source.rest_leaving hsuffix]
    cases hrest : s.rest.dropWhile Text.isBlank with
    | nil => rfl
    | cons u r =>
      have hu : Text.isBlank u = false := not_blank_of_mem_head? (t := s.rest) (by rw [hrest]; rfl)
      exact List.takeWhile_cons_of_neg (Bool.eq_false_iff.mp hu)
  · exact leadingBlanks_bytes htext

end Stream

namespace Rule

variable {σ : Type} {s : Stream} {budget : Nat}

/-- A repeated blank takes the leading blanks and leaves the context and the state alone. -/
theorem many_blank (hs : s.InBounds) (hbudget : s.rest.length < budget) (c : Value) :
    many budget (.finite 0) .infinite (Leaf.char .blank).toRule s c =
      (pure (.ok (s.advance s.leadingBlanks.length)
        (.list (s.leadingBlanks.map fun u => .text [u])) c) : Run σ Result) := by
  by_cases htext : s.isText = true
  · -- the loop does what a loop of scans does, and that takes the longest run of blanks
    have hfollows := (Follows.char (σ := σ) (of_decide_eq_true htext) .blank).many0
      Scan.Consumes.unit hbudget
    have hloop := hfollows.run hs.rest_suffix (Nat.lt_succ_self _) c
    have hfinds :
        ((Scan.unit CharClass.blank.mem fun _ => .tag CharClass.blank.tag).many).Finds s.rest
          (s.rest.takeWhile Text.isBlank) (s.rest.dropWhile Text.isBlank) := by
      rw [Scan.finds_many Scan.Consumes.unit, Scan.repeats_unit]
      exact ⟨List.takeWhile_append_dropWhile.symm, fun u hu => List.mem_takeWhile_imp hu,
        fun u hu => Stream.not_blank_of_mem_head? hu⟩
    rw [hs.leaving_rest, hfinds] at hloop
    rw [hloop, hs.advance_leadingBlanks htext, Stream.leadingBlanks_text htext]
    rfl
  · -- on bytes the first attempt fails
    obtain ⟨budget, rfl⟩ : ∃ b, budget = b + 1 := ⟨budget - 1, by omega⟩
    have hblank :
        (Leaf.char .blank).Seeks (.unit .text (CharClass.blank.mem · = true) [.whitespace]) :=
      Leaf.seeks_char fun u => Iff.rfl
    obtain ⟨tag, _, hmissed⟩ := hblank.missed s c hs fun m x h => htext (decide_eq_true h.kind)
    rw [Stream.leadingBlanks_bytes htext, Stream.advance_nil]
    show (repeatFrom _ (budget + 1) .infinite ⟨[], s, c⟩ >>= _) = _
    rw [repeatFrom, Leaf.toRule, hmissed]
    rfl

/-- A trimmed parser runs behind the blanks. -/
theorem trimmed_eq (hs : s.InBounds) (p : Rule σ) (c : Value) :
    trimmed p s c = p (s.advance s.leadingBlanks.length) c := by
  rw [trimmed, hs.skipBlanks_eq_advance]
  rfl

/-- Skipping blanks is to repeat the parser for one blank, as long as the budget lasts. -/
theorem trimmed_eq_keepRight (hs : s.InBounds) (hbudget : s.rest.length < budget) (p : Rule σ)
    (c : Value) :
    trimmed p s c = keepRight
      (many budget (.finite 0) .infinite (Leaf.char .blank).toRule) p s c := by
  rw [trimmed_eq hs, keepRight, many_blank hs hbudget]
  rfl

/-- On bytes there is nothing to trim. -/
theorem trimmed_bytes (hs : s.InBounds) (hbytes : s.kind = .bytes) (p : Rule σ) (c : Value) :
    trimmed p s c = p s c := by
  have htext : ¬ s.isText = true := by
    rw [Stream.isText, hbytes]
    decide
  rw [trimmed_eq hs, Stream.leadingBlanks_bytes htext, Stream.advance_nil]

/-- Behind the leading blanks there is nothing more to skip. -/
theorem trimmed_trimmed (hs : s.InBounds) (p : Rule σ) (c : Value) :
    trimmed (trimmed p) s c = trimmed p s c := by
  have hbehind := hs.advance s.leadingBlanks_le
  rw [trimmed_eq hs, trimmed_eq hbehind, hs.leadingBlanks_advance, Stream.advance_nil,
    trimmed_eq hs]

end Rule

/-! ## Parsers -/

namespace Parser

variable {rules : Rules} {p q : Parser Factory} {s : Stream} {c : Value} {x : Except Stop Result}

/-- Any number of blanks, then the parser. -/
def behindBlanks {δ : Type} (p : Parser δ) : Parser δ :=
  .binary .keepRight (.unary (.many (.finite 0) .infinite) (.leaf (.char .blank))) p

/-- Parsers that do the same under every budget that is large enough have the same ends. -/
theorem ends_congr_from (least : Nat)
    (h : ∀ m, least ≤ m → p.direct rules (m + 1) s c = q.direct rules (m + 1) s c) :
    p.Ends rules s c x ↔ q.Ends rules s c x := by
  have hsame : ∀ᶠ n in Filter.atTop, p.direct rules n s c = q.direct rules n s c := by
    filter_upwards [Filter.eventually_ge_atTop (least + 1)] with n hn
    obtain ⟨m, rfl⟩ : ∃ m, n = m + 1 := ⟨n - 1, by omega⟩
    exact h m (Nat.le_of_succ_le_succ hn)
  constructor
  · intro hp
    obtain ⟨n, hrun, heq⟩ := (hp.eventually.and hsame).exists
    have hend : (q.direct rules n s c #[]).1 = x := by rw [← heq, hrun]
    exact ends_of_direct hend hp.1
  · intro hq
    obtain ⟨n, hrun, heq⟩ := (hq.eventually.and hsame).exists
    have hend : (p.direct rules n s c #[]).1 = x := by rw [heq, hrun]
    exact ends_of_direct hend hq.1

/-- How the two are asked for. -/
theorem check_behindBlanks {g : Grammar} (hp : g.check = .ok p) :
    g.trimmed.check = .ok (.unary .trimmed p) ∧
    ((Grammar.leaf (.char .blank)).many0.keepRight g).check = .ok p.behindBlanks := by
  constructor
  · rw [Grammar.trimmed, Grammar.check, hp]
    rfl
  · rw [Grammar.keepRight, Grammar.check, hp]
    rfl

/-- **Trimming is a prefix of blanks.** A parser can be trimmed, or put behind any number of blanks,
with what the library offers. At every stream inside its source, text or bytes, and in every
context, the two do the same: with the same result or fault and the same state, wherever they run,
once the budget of the loop is beyond what is left. So they end alike. Trimming twice is trimming
once, and on bytes trimming does nothing. -/
theorem trimmed_iff_prefixed (rules : Rules) (p : Parser Factory) {s : Stream} (hs : s.InBounds)
    (c : Value) :
    (∀ g : Grammar, g.check = .ok p → g.trimmed.check = .ok (.unary .trimmed p) ∧
      ((Grammar.leaf (.char .blank)).many0.keepRight g).check = .ok p.behindBlanks) ∧
    (∀ {σ : Type} (host : Host σ Factory) (budget : Nat), s.rest.length < budget →
      (Parser.unary .trimmed p).toRule host budget s c = p.behindBlanks.toRule host budget s c) ∧
    (∀ x, (Parser.unary .trimmed p).Ends rules s c x ↔ p.behindBlanks.Ends rules s c x) ∧
    (∀ x, (Parser.unary .trimmed (.unary .trimmed p)).Ends rules s c x ↔
      (Parser.unary .trimmed p).Ends rules s c x) ∧
    (s.kind = .bytes → ∀ x, (Parser.unary .trimmed p).Ends rules s c x ↔ p.Ends rules s c x) := by
  refine ⟨?_, ?_, ?_, ?_, ?_⟩
  · intro g hp
    exact check_behindBlanks hp
  · intro σ host budget hbudget
    exact Rule.trimmed_eq_keepRight hs hbudget _ c
  · intro x
    -- the loop of blanks needs a budget of its own, so ends agree from there on
    refine ends_congr_from (s.rest.length + 1) fun m hm => ?_
    rw [behindBlanks, direct_binary, direct_unary, direct_unary]
    exact Rule.trimmed_eq_keepRight hs hm _ c
  · intro x
    refine ends_congr_from 0 fun m _ => ?_
    rw [direct_unary, direct_unary]
    exact Rule.trimmed_trimmed hs _ c
  · intro hbytes x
    refine ends_congr_from 0 fun m _ => ?_
    rw [direct_unary]
    exact Rule.trimmed_bytes hs hbytes _ c

/-- Three blanks, two of them beyond the common ones, and nothing behind them. -/
theorem trimmed_iff_prefixed_at_end :
    let s : Stream := ⟨⟨0, .text, #[120, 32, 0x85, 0x3000]⟩, 1⟩
    let letter : Parser Factory := .leaf (.char (.exactly 120))
    letter.behindBlanks.Ends (fun _ => none) s .null
      (.ok (.err ⟨s.source, 4⟩ (.tag .char) .null)) := by
  intro s letter
  have hs : s.InBounds := ⟨by decide, by decide⟩
  have hrun : ((Parser.unary .trimmed letter).direct (fun _ => none) 1 s .null #[]).1 =
      .ok (.err ⟨s.source, 4⟩ (.tag .char) .null) := by rfl
  exact ((trimmed_iff_prefixed _ letter hs .null).2.2.1 _).mp
    (ends_of_direct hrun (ok_ne_exhausted _))

end Parser

end Descent
