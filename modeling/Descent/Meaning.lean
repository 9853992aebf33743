import Descent.Parser
import Descent.Rule.Sequence
import Descent.Rule.Trace
import Descent.Rule.Trim

/-!
# The meaning of parsers

A parser means a rule. The tree is followed down to its leaves; what is not in the tree, the
deferred parsers, the grammars that `bind` selects and the log, is left to a host. Two hosts are
given. The direct one here builds a deferred parser afresh at every use and keeps nothing but the
log. A session, elsewhere, builds each one once.
-/

namespace Descent

/-- Runs a rule between the two halves of a hook. -/
def Rule.hooked {σ : Type} (hook : Hook) (p : Rule σ) : Rule σ :=
  fun s c => do
    match ← Run.lift (hook.before s c) with
    | .finish result => return result
    | .proceed c =>
      let result ← p s c
      Run.lift (hook.after result)

/-- What running a parser needs from outside of its tree. -/
structure Host (σ δ : Type) where
  /-- Runs a deferred parser. -/
  enter : δ → Rule σ
  /-- Builds and runs a grammar that was selected during the parse. -/
  start : Grammar → Rule σ
  /-- Adds an event to the log. -/
  note : Event → σ → σ

variable {σ δ : Type}

/-- The rule of an operation on one rule. -/
def Unary.toRule (note : Event → σ → σ) (budget : Nat) : Unary → Rule σ → Rule σ
  | map f, p => p.map f
  | mapError f, p => p.mapError f
  | optional, p => p.optional
  | many least most, p => Rule.many budget least most p
  | many1, p => Rule.many1 budget p
  | trimmed, p => Rule.trimmed p
  | tracked, p => Rule.tracked p
  | context _, p => p
  | traced label, p => Rule.traced note label p
  | hooked hook, p => Rule.hooked hook p

/-- The rule of an operation on two rules. -/
def Binary.toRule (budget : Nat) : Binary → Rule σ → Rule σ → Rule σ
  | both, p, q => p.both q
  | keepLeft, p, q => p.keepLeft q
  | keepRight, p, q => p.keepRight q
  | orElse, p, q => p.orElse q
  | manyUntil, p, q => Rule.manyUntil budget p q
  | separated trailing least most, p, q => Rule.separated trailing budget least most p q
  | separated1 trailing, p, q => Rule.separated1 trailing budget p q

mutual

/-- The rule that a parser means, for a host and a budget for each loop. -/
def Parser.toRule (host : Host σ δ) (budget : Nat) : Parser δ → Rule σ
  | .leaf l => l.toRule
  | .unary op p => op.toRule host.note budget (p.toRule host budget)
  | .binary op p q => op.toRule budget (p.toRule host budget) (q.toRule host budget)
  | .between opening closing inner =>
    Rule.between (opening.toRule host budget) (closing.toRule host budget)
      (inner.toRule host budget)
  | .serial ps => Rule.serial (toRules host budget ps)
  | .choice p ps => Rule.choice (p.toRule host budget) (toRules host budget ps)
  | .bind p f => (p.toRule host budget).bind fun x s c => do
    let g ← Run.lift (f x)
    host.start g s c
  | .deferred d => host.enter d

/-- The rules that parsers mean. -/
def Parser.toRules (host : Host σ δ) (budget : Nat) : List (Parser δ) → List (Rule σ)
  | [] => []
  | p :: ps => p.toRule host budget :: toRules host budget ps

end

/-- The rules of a list are those of its parsers. -/
theorem Parser.toRules_eq_map (host : Host σ δ) (budget : Nat) (ps : List (Parser δ)) :
    Parser.toRules host budget ps = ps.map (·.toRule host budget) := by
  induction ps with
  | nil => rfl
  | cons p ps ih => rw [Parser.toRules, ih, List.map_cons]

/-! ## Direct runs -/

/-- The events of a run, first one first. -/
abbrev Log := Array Event

/-- The host that builds every grammar anew and hands the parser on to `run`. -/
def Host.direct (rules : Rules) (run : Parser Factory → Rule Log) : Host Log Factory where
  enter factory s c := do
    let g ← Run.lift (factory.produce rules)
    let p ← Run.lift g.check
    run p s c
  start g s c := do
    let p ← Run.lift g.check
    run p s c
  note event log := log.push event

/-- The rule of a parser that builds each deferred parser anew where it is used. The budget bounds
the nesting of deferred parsers and the length of each loop. -/
def Parser.direct (rules : Rules) : (budget : Nat) → Parser Factory → Rule Log
  | 0, _ => fun _ _ => Run.stop .exhausted
  | budget + 1, p => p.toRule (Host.direct rules (Parser.direct rules budget)) budget

end Descent
