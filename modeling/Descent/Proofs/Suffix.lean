import Descent.Proofs.Leaves

/-!
# Descent — results lie ahead of the start

Whatever a parser does on its way, the stream of its result lies in the same source, at or after the
place where it was started and not past the end. This holds of failures as well, and it is what
makes "the text consumed since" a meaningful notion.

* **`Coupling.aheadOf`** — the coupling of a run with itself in which all streams lie between a
  given one and the end. Every combinator keeps it (`Coupling.Rules.direct`), so only the leaves
  (`Leaf.leadsTo_run`) and the skipping of blanks are looked at.
* **`Grammar.Over.leadsTo_result`** — the statement for whole parsers.
-/

namespace Descent

/-- A run with itself, all of whose streams lie ahead of a given one. -/
def Coupling.aheadOf (start : Stream) : Coupling Log Log :=
  .alone start.LeadsTo fun _ => True

theorem Coupling.aheadOf_grants {start : Stream} (hstart : start.InBounds) :
    (Coupling.aheadOf start).Grants .library where
  leaf l hl := by
    rintro s _ c _ ⟨rfl, hs⟩ ⟨rfl, _⟩
    refine .refl (fun r hr => ?_) fun _ _ => rfl
    exact .alone (hs.trans (Leaf.leadsTo_run hl (hs.inBounds hstart) hr)) trivial
  unary op hop := by
    refine Coupling.allows_of_eq (fun _ _ => .rfl) (fun _ _ => .rfl) (fun _ => rfl) hop ?_ ?_
      fun _ _ => .alone
    · rintro s _ ⟨rfl, hs⟩
      refine .refl (fun t ht => ?_) fun _ _ => rfl
      exact ⟨rfl, hs.trans ((hs.inBounds hstart).leadsTo_skipBlanks ht)⟩
    · rintro _ s _ c _ ⟨rfl, _⟩ ⟨rfl, _⟩
      exact .refl (fun _ _ => ⟨rfl, trivial⟩) fun _ _ => rfl
  fault _ _ := rfl
  output _ _ h := h

/-- **Results lie ahead of the start.** A parser of library parts, started inside its source, ends
in the same source, at or after its start and not past the end, whether it succeeds or fails; so
what it consumed, followed by what it left, is what there was to read. -/
theorem Grammar.Over.leadsTo_result {rules : Rules} (hrules : rules.Over .library) {g : Grammar}
    (hg : g.Over .library) {p : Parser Factory} (hp : g.check = .ok p) {budget : Nat}
    {start : Stream} (hstart : start.InBounds) {c : Value} {log log' : Log} {r : Result}
    (hrun : p.direct rules budget start c log = (.ok r, log')) :
    r.stream.source = start.source ∧ start.offset ≤ r.stream.offset ∧
      r.stream.offset ≤ start.source.size ∧
      r.stream.consumedSince start ++ r.stream.rest = start.rest := by
  have hlead : start.LeadsTo r.stream :=
    ((Coupling.Rules.direct (Coupling.aheadOf_grants hstart) hrules budget (hg.check hp)).of_alone
      hstart.leadsTo_self trivial hrun).1
  exact ⟨hlead.source, hlead.start_le, hlead.le_size, hlead.consumedSince_append_rest hstart⟩

/-- A failure after a `bind` and a repetition: three of the four characters are consumed, and the
fourth is left. -/
theorem leadsTo_late_failure :
    let start : Stream := ⟨⟨0, .text, #[97, 97, 98, 120]⟩, 0⟩
    let failed : Stream := ⟨⟨0, .text, #[97, 97, 98, 120]⟩, 3⟩
    failed.source = start.source ∧ start.offset ≤ failed.offset ∧
      failed.offset ≤ start.source.size ∧
      failed.consumedSince start ++ failed.rest = start.rest := by
  let tail : Grammar := .serial [.char 'b', .char 'c']
  let g : Grammar := .lazy (.bind (.many1 (.char 'a')) fun _ => .ok tail)
  have hchar (c : Char) : (Grammar.char c).Over .library := by
    refine .terminal fun l hl => ?_
    cases hl
    exact fun _ => nofun
  have htail : tail.Over .library := by
    refine .serial fun h hh => ?_
    rcases List.mem_cons.mp hh with rfl | hh
    · exact hchar 'b'
    · rw [List.mem_singleton.mp hh]
      exact hchar 'c'
  have hg : g.Over .library := by
    refine .lazy (.bind (.unary (fun _ => nofun) (hchar 'a')) ?_ (fun _ _ _ _ _ => trivial)
      fun _ _ _ => trivial)
      fun _ _ => trivial
    intro _ h hh
    cases hh
    exact htail
  have hrules : Rules.Over .library fun _ => none :=
    ⟨fun _ _ => nofun, fun _ _ => nofun, fun _ _ => trivial⟩
  -- the budget is for the deferred grammar, the selected one and three turns of the loop
  have hrun : Parser.direct (fun _ => none) 5
      (.deferred (.grammar (.bind (.many1 (.char 'a')) fun _ => .ok tail)))
      ⟨⟨0, .text, #[97, 97, 98, 120]⟩, 0⟩ .null #[]
      = (.ok (.err ⟨⟨0, .text, #[97, 97, 98, 120]⟩, 3⟩ (.tag .char) .null), #[]) := by
    rfl
  exact hg.leadsTo_result hrules rfl ⟨by decide, by decide⟩ hrun

end Descent
