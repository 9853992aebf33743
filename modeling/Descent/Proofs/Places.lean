import Descent.Call
import Descent.Proofs.Scopes
import Descent.Proofs.Suffix

/-!
# Descent — the place of a failure

There are two counts of lines and columns. A failure that is unwrapped counts over the whole text in
front of its stream, from the last line feed on; a tracker counts on from chunk to chunk. Both give
the place of a stream as the same line and column.

* **`ParseError.message_eq`** — the message names the position that the text in front of the stream
  leads to.
* **`Grammar.Over.tracks_result`** — a tracked parser hands back a context that counts from where it
  began, if no other scope lies inside.
* **`ParseError.place_of_failure`** — the statement for failures of tracked parsers, with
  `place_in_inner_scope` to show that an inner scope has a count of its own.
-/

namespace Descent

/-! ## The message -/

/-- As many units lie in front of a stream as its offset says. -/
theorem Stream.InBounds.length_slice {s : Stream} (hs : s.InBounds) :
    ((s.source.slice 0 s.offset).length : Int) = s.offset := by
  have hsize := s.source.length_units
  have hnonneg := hs.nonneg
  have hle := hs.le_size
  rw [s.source.slice_eq (Int.le_refl 0) hnonneg hle]
  show ((s.source.units.toList.take s.offset.toNat).length : Int) = s.offset
  rw [List.length_take]
  omega

/-- The line and the column that the message counts are those of the position behind the same
text. -/
theorem ParseError.message_eq {e : ParseError} (htext : e.stream.kind = .text)
    (hs : e.stream.InBounds) :
    e.message = .ofString "Parse error at " ++
      (Position.advance {} (e.stream.source.slice 0 e.stream.offset)).place ++
      .ofString ": " ++ e.error.plain := by
  have hlength := hs.length_slice
  have hhead : Text.ofString "Parse error at line " =
      .ofString "Parse error at " ++ .ofString "line " := by rfl
  unfold ParseError.message Position.place
  rw [htext]
  simp only [hhead, List.append_assoc]
  cases hlast : Text.lastIndexOf? Text.lineFeed (e.stream.source.slice 0 e.stream.offset) with
  | none =>
    -- without a line feed no line is counted, and the column is the offset
    have hcount := Text.count_of_lastIndexOf? hlast
    simp only [Position.advance, hlast, hcount, hlength, Int.zero_add, Int.natCast_zero]
  | some i =>
    have hcolumn : e.stream.offset - ((i : Int) + 1) = e.stream.offset - i - 1 := by omega
    simp only [Position.advance, hlast, hlength, hcolumn, Int.add_comm]

/-- How a place is worded in the first lines and columns. -/
theorem Position.place_of_lt (offset : Int) {line column : Nat} (hline : line < 10)
    (hcolumn : column < 10) :
    Position.place ⟨offset, line, column⟩ =
      .ofString "line " ++ [48 + line] ++ .ofString ", column " ++ [48 + column] := by
  have hdigit : ∀ n : Nat, n < 10 → Decimal.ofInt n = [48 + n] := by
    intro n hn
    show Decimal.digitsOnto n [] = [48 + n]
    rw [Decimal.digitsOnto, if_pos hn]
  rw [place, hdigit line hline, hdigit column hcolumn]

/-! ## Trackers at a failure -/

section

variable {rules : Rules} {g : Grammar} {p : Parser Factory} {budget : Nat} {s : Stream} {c : Value}
  {log log' : Log} {r : Result}

/-- A tracked parser without a scope inside ends at a stream further on, and hands back a context
that counts from where it began. -/
theorem Grammar.Over.tracks_result (hrules : rules.Over .untracked) (hg : g.Over .untracked)
    (hp : (Grammar.unary .tracked g).check = .ok p) (hs : s.InBounds)
    (hrun : p.direct rules budget s c log = (.ok r, log')) :
    s.LeadsTo r.stream ∧ Tracks s r.context := by
  obtain ⟨part, hpart, h⟩ := ok_of_bind hp
  cases h
  cases budget with
  | zero => cases hrun
  | succ budget =>
    cases c with
    | table entries =>
      change part.toRule (Host.direct rules (Parser.direct rules budget)) budget s
        (Rule.withTracker (.start s) (.table entries)) log = (.ok r, log') at hrun
      -- inside the scope the context tracks from its start, and no other scope begins
      have hgrants := Coupling.tracks_grants hs
      have hrule := Coupling.Rules.toRule hgrants hrules
        (fun q hq => Coupling.Rules.direct hgrants hrules budget hq) budget (hg.check hpart)
      exact hrule.of_alone hs.leadsTo_self (.withTracker (.start hs) entries) hrun
    | _ => cases hrun

/-- A tracker that counts from the start of a text gives the position that the text in front of the
stream leads to. -/
theorem Tracks.position_from_start {src : Source} (hc : Tracks ⟨src, 0⟩ c)
    (hsource : s.source = src) (hs : s.InBounds) :
    ∃ d, Rule.position s c =
      .ok (.ok s (.position (Position.advance {} (src.slice 0 s.offset))) d) := by
  have hstart : (⟨src, 0⟩ : Stream).InBounds := ⟨Int.le_refl 0, Int.natCast_nonneg _⟩
  have hlead : (⟨src, 0⟩ : Stream).LeadsTo s := ⟨hsource, hs.nonneg, hsource ▸ hs.le_size⟩
  obtain ⟨d, hposition, _⟩ := hc.position_eq hstart hlead
  rw [Stream.positionFrom, Stream.consumedSince, hsource] at hposition
  exact ⟨d, hposition⟩

end

/-- **The place of a failure.** In a text, the line and the column in the message of a failure are
those of the position that the text in front of its stream leads to. So let a tracked grammar, run
from the start of a text, fail at a stream of the text, as it always does if it is made of library
parts. The place in the message of the unwrapped failure is the answer of the position leaf there:
of every tracker that counts from the start, as the grammar began with, and in the very context of
the failure if no other scope lies inside. -/
theorem ParseError.place_of_failure (rules : Rules) {src : Source} (htext : src.kind = .text) :
    (∀ e : ParseError, e.stream.source = src → e.stream.InBounds →
      e.message =
        .ofString "Parse error at " ++ (Position.advance {} (src.slice 0 e.stream.offset)).place ++
        .ofString ": " ++ e.error.plain) ∧
    ∀ (g : Grammar) p, (Grammar.unary .tracked g).check = .ok p →
      ∀ budget c log s e d log', p.direct rules budget ⟨src, 0⟩ c log = (.ok (.err s e d), log') →
      let place : Position := Position.advance {} (src.slice 0 s.offset)
      (rules.Over .library → g.Over .library → s.source = src ∧ s.InBounds) ∧
      (s.source = src → s.InBounds →
        (∃ failure : ParseError, (Result.err s e d).unwrap = .error failure ∧
          failure.message = .ofString "Parse error at " ++ place.place ++
            .ofString ": " ++ e.plain) ∧
        ∀ entries t, t.Accurate ⟨src, 0⟩ →
          ∃ d', Rule.position s (Rule.withTracker t (.table entries)) =
            .ok (.ok s (.position place) d')) ∧
      (rules.Over .untracked → g.Over .untracked →
        ∃ d', Rule.position s d = .ok (.ok s (.position place) d')) := by
  -- the message counts in the whole source, whatever the context holds
  have hmessage : ∀ e : ParseError, e.stream.source = src → e.stream.InBounds →
      e.message =
        .ofString "Parse error at " ++ (Position.advance {} (src.slice 0 e.stream.offset)).place ++
        .ofString ": " ++ e.error.plain := by
    intro e hsource hs
    have hkind : e.stream.kind = .text := by
      rw [Stream.kind, hsource]
      exact htext
    rw [message_eq hkind hs, hsource]
  refine ⟨hmessage, fun g p hp budget c log s e d log' hrun => ?_⟩
  have hstart : (⟨src, 0⟩ : Stream).InBounds := ⟨Int.le_refl 0, Int.natCast_nonneg _⟩
  refine ⟨fun hrules hg => ?_, fun hsource hs => ⟨?_, fun entries t ht => ?_⟩, fun hrules hg => ?_⟩
  · have hover : (Grammar.unary .tracked g).Over .library := .unary (fun _ => nofun) hg
    have hlead : (⟨src, 0⟩ : Stream).LeadsTo s :=
      ((Coupling.Rules.direct (Coupling.aheadOf_grants hstart) hrules budget
        (hover.check hp)).of_alone hstart.leadsTo_self trivial hrun).1
    exact ⟨hlead.source, hlead.inBounds hstart⟩
  · exact ⟨⟨e, s⟩, rfl, hmessage ⟨e, s⟩ hsource hs⟩
  · exact (Tracks.withTracker ht entries).position_from_start hsource hs
  · -- without inner scopes the failure's own context still counts from the start
    obtain ⟨hlead, htracks⟩ := hg.tracks_result hrules hp hstart hrun
    exact htracks.position_from_start hlead.source (hlead.inBounds hstart)

/-- A failure behind a line break, which is a pair of characters. -/
theorem ParseError.place_of_failure_second_line :
    let g : Grammar := .serial [.string "a\r\n", .char 'x']
    let src : Source := ⟨0, .text, #[97, 13, 10, 98]⟩
    ∃ p s d, (Grammar.unary .tracked g).check = .ok p ∧
      (p.direct (fun _ => none) 1 ⟨src, 0⟩ .emptyTable #[]).1 = .ok (.err s (.tag .char) d) ∧
      (ParseError.mk (.tag .char) s).message = .ofString "Parse error at line 2, column 0: Char" ∧
      ∃ d', Rule.position s d = .ok (.ok s (.position ⟨3, 2, 0⟩) d') := by
  intro g src
  have hover {P : Palette} (hleaf : ∀ l, (∀ run, l ≠ .custom run) → P.leaf l) : g.Over P := by
    refine .serial fun h hh => ?_
    rcases List.mem_cons.mp hh with rfl | hh
    · refine .terminal fun l hl => ?_
      cases hl
      exact hleaf _ fun _ => nofun
    · rw [List.mem_singleton.mp hh]
      exact .char (hleaf _ fun _ => nofun)
  have hrules {P : Palette} (hfault : ∀ fault, P.fault fault) : Rules.Over P fun _ => none :=
    ⟨fun _ _ => nofun, fun _ _ => nofun, fun _ _ => hfault _⟩
  have htext : src.kind = .text := rfl
  obtain ⟨hinside, hagrees, hposition⟩ :=
    (place_of_failure (fun _ => none) htext).2 g _ rfl 1 .emptyTable #[]
      ⟨src, 3⟩ (.tag .char) _ _ rfl
  obtain ⟨hsource, hs⟩ := hinside (hrules fun _ => trivial) (hover fun _ h => h)
  obtain ⟨⟨failure, hfailure, hmessage⟩, _⟩ := hagrees hsource hs
  cases hfailure
  refine ⟨_, ⟨src, 3⟩, _, rfl, rfl, ?_, hposition (hrules fun _ => trivial) (hover fun _ h => h)⟩
  rw [hmessage]
  show _ ++ Position.place ⟨3, (2 : Nat), (0 : Nat)⟩ ++ _ ++ _ = _
  rw [Position.place_of_lt 3 (by decide) (by decide)]
  rfl

/-- **An inner scope has a count of its own.** A failure in a scope that begins one character behind
the start of the text: it carries the position that is reported at its stream, and that is not the
place that the message prints. -/
theorem place_in_inner_scope :
    let inner : Grammar := .unary .tracked
      (.bind (.keepRight (.leaf (.char .any)) (.leaf .position)) fun x => .ok (.leaf (.fail x)))
    let g : Grammar := .unary .tracked (.keepRight (.leaf (.char .any)) inner)
    let src : Source := ⟨0, .text, #[97, 98]⟩
    ∃ p s d, g.check = .ok p ∧
      (p.direct (fun _ => none) 2 ⟨src, 0⟩ .emptyTable #[]).1 =
        .ok (.err s (.position ⟨1, 1, 1⟩) d) ∧
      (∃ d', Rule.position s d = .ok (.ok s (.position ⟨1, 1, 1⟩) d')) ∧
      (ParseError.mk (.position ⟨1, 1, 1⟩) s).message =
        .ofString "Parse error at line 1, column 2: line 1, column 1" := by
  intro inner g src
  refine ⟨_, ⟨src, 2⟩, _, rfl, rfl, ⟨_, rfl⟩, ?_⟩
  rw [ParseError.message_eq rfl ⟨by decide, by decide⟩]
  show _ ++ Position.place ⟨2, (1 : Nat), (2 : Nat)⟩ ++ _ ++
      Position.place ⟨1, (1 : Nat), (1 : Nat)⟩ = _
  rw [Position.place_of_lt 2 (by decide) (by decide),
    Position.place_of_lt 1 (by decide) (by decide)]
  rfl

end Descent
