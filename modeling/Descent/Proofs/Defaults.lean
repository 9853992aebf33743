import Descent.Call
import Descent.Prelude.Context
import Descent.Proofs.Pairing

/-!
# Descent — default contexts

A default context belongs to the parser that is called, and to no part of it: by the time a part is
run it has been given a context. So a wrapper that adds nothing to what its part does, a trace or a
deferral, still has a default of its own, which is the empty table. Called without a context, it
does what its part does when called with the empty table.

* **`Parser.Ends`** — how a run ends with every budget that is large enough, whatever has been
  logged before. There is one such end at most (`Parser.Ends.unique`).
* **`Parser.ends_traced` / `Parser.ends_deferred`** — in a given context, the wrappers end as their
  part does.
* **`Call.EndsWith`** — the same for a call, which may leave out the context.
* **`Grammar.wrapped_endsWith`** — the statement for calls, with `default_context_not_kept` to show
  what is not true.
-/

namespace Descent

/-! ## Ends of runs -/

/-- A direct run, at a stream and in a context, ends with a result or a fault. -/
def Parser.Ends (rules : Rules) (p : Parser Factory) (s : Stream) (c : Value)
    (x : Except Stop Result) : Prop :=
  x ≠ .error .exhausted ∧ ∃ budget, ∀ log, (p.direct rules budget s c log).1 = x

namespace Parser

variable {rules : Rules} {p : Parser Factory} {s : Stream} {c : Value} {x y : Except Stop Result}

/-- One budget that is large enough, and one log, tell the end. -/
theorem ends_of_direct {budget : Nat} {log : Log} (h : (p.direct rules budget s c log).1 = x)
    (hx : x ≠ .error .exhausted) : p.Ends rules s c x := by
  subst h
  exact ⟨hx, budget, fun log' => p.direct_settled rules (Nat.le_refl budget) log log' hx⟩

/-- Of two budgets that are large enough, the larger one agrees with both. -/
theorem Ends.unique (hx : p.Ends rules s c x) (hy : p.Ends rules s c y) : x = y := by
  obtain ⟨hx, budget, hrun⟩ := hx
  obtain ⟨hy, budget', hrun'⟩ := hy
  have hleft := p.direct_settled rules (Nat.le_max_left budget budget') #[] #[] (by rwa [hrun])
  have hright := p.direct_settled rules (Nat.le_max_right budget budget') #[] #[] (by rwa [hrun'])
  rw [hrun] at hleft
  rw [hrun'] at hright
  exact hleft.symm.trans hright

/-- A trace changes the log and not the end. -/
theorem fst_traced {σ : Type} (note : Event → σ → σ) (label : Text) (q : Rule σ) (s : Stream)
    (c : Value) (u : σ) :
    (Rule.traced note label q s c u).1 = (q s c (note (.atStart label s) u)).1 := by
  unfold Rule.traced
  simp only [Run.update, Run.bind_apply]
  rcases q s c (note (.atStart label s) u) with ⟨_ | result, u'⟩ <;> rfl

theorem ends_traced (label : Text) :
    (Parser.unary (.traced label) p).Ends rules s c x ↔ p.Ends rules s c x := by
  have hfst (budget : Nat) (log : Log) :
      ((Parser.unary (.traced label) p).direct rules budget s c log).1 =
      (p.direct rules budget s c (log.push (.atStart label s))).1 := by
    cases budget with
    | zero => rfl
    | succ budget => exact fst_traced _ label _ s c log
  constructor
  · rintro ⟨hx, budget, hrun⟩
    exact ends_of_direct ((hfst budget #[]).symm.trans (hrun #[])) hx
  · rintro ⟨hx, budget, hrun⟩
    exact ⟨hx, budget, fun log => (hfst budget log).trans (hrun _)⟩

/-- A deferred parser takes one step of the budget, in which it is built. -/
theorem ends_deferred {g : Grammar} (hp : g.check = .ok p) :
    (Parser.deferred (.grammar g)).Ends rules s c x ↔ p.Ends rules s c x := by
  have hstep (budget : Nat) :
      (Parser.deferred (.grammar g)).direct rules (budget + 1) s c = p.direct rules budget s c := by
    show (Run.lift g.check >>= fun q => q.direct rules budget s c) = _
    rw [hp]
    rfl
  constructor
  · rintro ⟨hx, budget, hrun⟩
    cases budget with
    | zero => exact absurd (hrun #[]).symm hx
    | succ budget =>
      rw [hstep] at hrun
      exact ⟨hx, budget, hrun⟩
  · rintro ⟨hx, budget, hrun⟩
    refine ⟨hx, budget + 1, ?_⟩
    rwa [hstep]

end Parser

/-! ## Calls -/

/-- A call of a parser ends with a result or a fault. What is done with the log afterwards is no
part of it. -/
def Call.EndsWith (rules : Rules) (call : Call) (p : Parser Factory) (x : Except Stop Result) :
    Prop :=
  x ≠ .error .exhausted ∧ ∃ budget, (call.run p.defaultContext (p.direct rules budget) #[]).1 = x

/-- A call ends with the fault of an input that cannot be read, or as the run from there on does. -/
theorem Call.endsWith_iff {rules : Rules} {call : Call} {p : Parser Factory}
    {x : Except Stop Result} :
    call.EndsWith rules p x ↔ match call.input.toStream call.ident with
      | .error f => x = .error (.fault f)
      | .ok s => p.Ends rules s (call.context.getD p.defaultContext) x := by
  unfold Call.EndsWith Call.run
  cases call.input.toStream call.ident with
  | error f =>
    constructor
    · rintro ⟨_, _, rfl⟩
      rfl
    · rintro rfl
      exact ⟨nofun, 0, rfl⟩
  | ok s =>
    constructor
    · rintro ⟨hx, budget, hrun⟩
      exact Parser.ends_of_direct hrun hx
    · rintro ⟨hx, budget, hrun⟩
      exact ⟨hx, budget, hrun #[]⟩

theorem Call.EndsWith.unique {rules : Rules} {call : Call} {p : Parser Factory}
    {x y : Except Stop Result} (hx : call.EndsWith rules p x) (hy : call.EndsWith rules p y) :
    x = y := by
  rw [endsWith_iff] at hx hy
  cases hinput : call.input.toStream call.ident with
  | error f =>
    simp only [hinput] at hx hy
    rw [hx, hy]
  | ok s =>
    simp only [hinput] at hx hy
    exact hx.unique hy

/-- Two parsers that end alike, and the contexts from which their calls start. -/
theorem Call.endsWith_congr {rules : Rules} {p q : Parser Factory}
    (h : ∀ s c x, q.Ends rules s c x ↔ p.Ends rules s c x) {ident : Nat} {input : Input}
    {context context' : Option Value}
    (hcontext : context.getD q.defaultContext = context'.getD p.defaultContext)
    (x : Except Stop Result) :
    Call.EndsWith rules { ident, input, context } q x ↔
      Call.EndsWith rules { ident, input, context := context' } p x := by
  rw [endsWith_iff, endsWith_iff]
  simp only
  split
  · exact .rfl
  · rw [hcontext, h]

/-- Every parser starts from the empty table, unless it was given another default. -/
theorem Parser.defaultContext_eq {p : Parser Factory}
    (h : ∀ initial q, p = .unary (.context initial) q → initial = .emptyTable) :
    p.defaultContext = .emptyTable := by
  unfold Parser.defaultContext
  split
  · exact h _ _ rfl
  · rfl

/-- **A wrapper starts from the empty table.** A traced parser and a deferred one, called on any
input, end as the parser itself does when called in the given context, or in the empty table if none
is given. So they end as the parser does when it is called in the same way, unless no context is
given and the parser has another default than the empty table. -/
theorem Grammar.wrapped_endsWith (rules : Rules) {g : Grammar} {p : Parser Factory}
    (hp : g.check = .ok p) (label : Text) (ident : Nat) (input : Input) (context : Option Value) :
    ∃ traced deferred, (Grammar.unary (.traced label) g).check = .ok traced ∧
      (Grammar.lazy g).check = .ok deferred ∧
      (∀ q ∈ [traced, deferred], ∀ x, Call.EndsWith rules { ident, input, context } q x ↔
        Call.EndsWith rules { ident, input, context := some (context.getD .emptyTable) } p x) ∧
      ((context = none → ∀ initial q, p = .unary (.context initial) q → initial = .emptyTable) →
        ∀ q ∈ [traced, deferred], ∀ x, Call.EndsWith rules { ident, input, context } q x ↔
          Call.EndsWith rules { ident, input, context } p x) := by
  have hchecked : (Grammar.unary (.traced label) g).check = .ok (.unary (.traced label) p) := by
    rw [Grammar.check, hp]
    rfl
  -- neither wrapper keeps a default of its own, and both run what they wrap
  have hwrapped (q : Parser Factory) (hq : q ∈ [.unary (.traced label) p, .deferred (.grammar g)]) :
      q.defaultContext = .emptyTable ∧ ∀ s c x, q.Ends rules s c x ↔ p.Ends rules s c x := by
    rcases List.mem_pair.mp hq with rfl | rfl
    · exact ⟨rfl, fun s c x => Parser.ends_traced label⟩
    · exact ⟨rfl, fun s c x => Parser.ends_deferred hp⟩
  refine ⟨_, _, hchecked, rfl, fun q hq x => ?_, fun hdefault q hq x => ?_⟩
  · obtain ⟨hempty, hends⟩ := hwrapped q hq
    exact Call.endsWith_congr hends (by rw [hempty]; rfl) x
  · obtain ⟨hempty, hends⟩ := hwrapped q hq
    refine Call.endsWith_congr hends ?_ x
    cases context with
    | some c => rfl
    | none =>
      show q.defaultContext = p.defaultContext
      rw [hempty, Parser.defaultContext_eq (hdefault rfl)]

/-- The parser that gives its context back, under a default that is the empty table itself. -/
theorem wrapped_endsWith_current :
    let g : Grammar := .unary (.context .emptyTable) .currentContext
    let s : Stream := ⟨⟨0, .text, #[]⟩, 0⟩
    ∃ p traced deferred, g.check = .ok p ∧ (Grammar.unary (.traced []) g).check = .ok traced ∧
      (Grammar.lazy g).check = .ok deferred ∧ ∀ q ∈ [traced, deferred, p],
        Call.EndsWith (fun _ => none) { input := .stream s } q
          (.ok (.ok s .emptyTable .emptyTable)) := by
  intro g s
  have hp : Call.EndsWith (fun _ => none) { input := .stream s }
      (.unary (.context .emptyTable) (.leaf (.custom fun s c => .ok (.ok s c c))))
        (.ok (.ok s .emptyTable .emptyTable)) :=
    ⟨nofun, 1, rfl⟩
  obtain ⟨traced, deferred, htraced, hdeferred, -, hsame⟩ :=
    Grammar.wrapped_endsWith (fun _ => none) (g := g) rfl [] 0 (.stream s) none
  have hdefault : ∀ initial q,
      Parser.unary (.context .emptyTable) (.leaf (.custom fun s c => .ok (.ok s c c))) =
      (.unary (.context initial) q : Parser Factory) → initial = .emptyTable := by
    rintro initial q heq
    cases heq
    rfl
  have hwrapped := hsame fun _ => hdefault
  refine ⟨_, traced, deferred, rfl, htraced, hdeferred, ?_⟩
  simp only [List.forall_mem_cons, List.not_mem_nil, false_implies, implies_true, and_true]
  exact ⟨(hwrapped traced (by simp) _).mpr hp, (hwrapped deferred (by simp) _).mpr hp, hp⟩

/-- A default context is lost under a wrapper: with one and the empty table for their contexts, the
results differ. -/
theorem default_context_not_kept :
    let g : Grammar := .unary (.context (.int 1)) (.leaf (.char .any))
    let call : Call := { input := .value (.text [97]) }
    ∃ p traced deferred, g.check = .ok p ∧ (Grammar.unary (.traced [116]) g).check = .ok traced ∧
      (Grammar.lazy g).check = .ok deferred ∧ ∀ q ∈ [traced, deferred],
        ¬ ∀ x, call.EndsWith (fun _ => none) q x ↔ call.EndsWith (fun _ => none) p x := by
  intro g call
  let t : Stream := ⟨⟨0, .text, #[97]⟩, 1⟩
  refine ⟨_, _, _, rfl, rfl, rfl, fun q hq hsame => ?_⟩
  have hwrapped : call.EndsWith (fun _ => none) q (.ok (.ok t (.text [97]) .emptyTable)) := by
    rcases List.mem_pair.mp hq with rfl | rfl
    · exact ⟨nofun, 1, rfl⟩
    · exact ⟨nofun, 2, rfl⟩
  have hplain : call.EndsWith (fun _ => none) q (.ok (.ok t (.text [97]) (.int 1))) :=
    (hsame _).mpr ⟨nofun, 1, rfl⟩
  cases hwrapped.unique hplain

end Descent
