import Descent.Proofs.Palette

/-!
# Descent — a grammar in another form

A grammar may be rewritten part by part: leaves for leaves, operations for operations, and some
operations left out. What is built later is rewritten when it is built. If one rewritten part runs
beside the part it stands for, then so does the rewritten grammar beside the grammar, since the
combinators only hand on what their parts make.

* **`Recasting`** — what stands for each part; **`Grammar.recast`** and **`Parser.recast`** apply it
  throughout.
* **`Grammar.Over.check_recast`** — recasting before or after the check makes no difference.
* **`Coupling.Recasts`** — what has to be known of the parts, for a family of couplings; an
  operation may ask for its own part in another member of the family than it is run in itself.
* **`Coupling.Recasts.direct`** — every run of a parser beside the run of the recast one.
-/

namespace Descent

/-- What stands for the parts of a grammar. -/
structure Recasting where
  terminal : Terminal → Terminal
  leaf : Leaf → Leaf
  /-- The operation that stands for another, or none where its part is to stand alone. -/
  unary : Unary → Option Unary
  /-- An output of the rewritten grammar, as the callbacks of the grammar are to see it. -/
  read : Value → Value

variable (R : Recasting)

/-! ## Recast grammars and parsers -/

mutual

/-- The grammar with every part rewritten. -/
def Grammar.recast : Grammar → Grammar
  | .terminal t => .terminal (R.terminal t)
  | .unary op g =>
    match R.unary op with
    | some op' => .unary op' g.recast
    | none => g.recast
  | .binary op g h => .binary op g.recast h.recast
  | .between opening closing inner => .between opening.recast closing.recast inner.recast
  | .serial gs => .serial (recastAll gs)
  | .choice gs => .choice (recastAll gs)
  | .bind g f => .bind g.recast fun y => recastResult (f (R.read y))
  | .lazy g => .lazy g.recast
  | .ref name => .ref name

def Grammar.recastAll : List Grammar → List Grammar
  | [] => []
  | g :: gs => g.recast :: recastAll gs

def Grammar.recastResult : Except Fault Grammar → Except Fault Grammar
  | .ok g => .ok g.recast
  | .error f => .error f

end

def Rules.recast (rules : Rules) : Rules :=
  fun name => (rules name).map (Grammar.recast R)

def Factory.recast : Factory → Factory
  | grammar g => grammar (g.recast R)
  | named name => named name

mutual

/-- The parser with every part rewritten. -/
def Parser.recast : Parser Factory → Parser Factory
  | .leaf l => .leaf (R.leaf l)
  | .unary op p =>
    match R.unary op with
    | some op' => .unary op' p.recast
    | none => p.recast
  | .binary op p q => .binary op p.recast q.recast
  | .between opening closing inner => .between opening.recast closing.recast inner.recast
  | .serial ps => .serial (recastAll ps)
  | .choice p ps => .choice p.recast (recastAll ps)
  | .bind p f => .bind p.recast fun y => Grammar.recastResult R (f (R.read y))
  | .deferred factory => .deferred (factory.recast R)

def Parser.recastAll : List (Parser Factory) → List (Parser Factory)
  | [] => []
  | p :: ps => p.recast :: recastAll ps

end

/-! ## Recasting and checking -/

/-- The parts that stand for others can be built exactly where these can, for the parts that a
palette holds. -/
structure Recasting.Lawful (P : Palette) : Prop where
  terminal : ∀ t, (∀ l, t.check = .ok l → P.leaf l) → (R.terminal t).check = t.check.map R.leaf
  kept : ∀ op op', R.unary op = some op' → op'.check = op.check
  erased : ∀ op, R.unary op = none → op.check = .ok ()

variable {R} {P : Palette}

theorem Grammar.checkAll_recastAll {gs : List Grammar}
    (h : ∀ g ∈ gs, (g.recast R).check = g.check.map (Parser.recast R)) :
    checkAll (recastAll R gs) = (checkAll gs).map (Parser.recastAll R) := by
  induction gs with
  | nil => rfl
  | cons g gs ih =>
    rw [recastAll, checkAll, checkAll, h g List.mem_cons_self,
      ih fun g' hg' => h g' (List.mem_cons_of_mem g hg')]
    cases g.check with
    | error f => rfl
    | ok p =>
      cases checkAll gs with
      | error f => rfl
      | ok ps => rfl

/-- Recasting before the check or after it makes no difference. -/
theorem Grammar.Over.check_recast (hR : R.Lawful P) {g : Grammar} (hg : g.Over P) :
    (g.recast R).check = g.check.map (Parser.recast R) := by
  induction hg with
  | @terminal t hleaf =>
    rw [Grammar.recast, Grammar.check, Grammar.check, hR.terminal t hleaf]
    cases t.check with
    | error f => rfl
    | ok l => rfl
  | @unary op g _ _ ih =>
    rw [Grammar.recast]
    cases hop : R.unary op with
    | some op' =>
      simp only
      rw [Grammar.check, Grammar.check, ih, hR.kept op op' hop]
      cases g.check with
      | error f => rfl
      | ok p =>
        cases op.check with
        | error f => rfl
        | ok _ =>
          show Except.ok (Parser.unary op' (p.recast R)) = Except.ok (Parser.recast R (.unary op p))
          rw [Parser.recast, hop]
    | none =>
      -- nothing is left of the operation, which was in order
      simp only
      rw [Grammar.check, ih, hR.erased op hop]
      cases g.check with
      | error f => rfl
      | ok p =>
        show Except.ok (p.recast R) = Except.ok (Parser.recast R (.unary op p))
        rw [Parser.recast, hop]
  | @binary op g h _ _ ihg ihh =>
    rw [Grammar.recast, Grammar.check, Grammar.check, ihg, ihh]
    cases g.check with
    | error f => rfl
    | ok p =>
      cases h.check with
      | error f => rfl
      | ok q => cases op.check <;> rfl
  | @between opening closing inner _ _ _ iho ihc ihi =>
    rw [Grammar.recast, Grammar.check, Grammar.check, iho, ihc, ihi]
    cases opening.check with
    | error f => rfl
    | ok p =>
      cases closing.check with
      | error f => rfl
      | ok q => cases inner.check <;> rfl
  | @serial gs _ ih =>
    rw [Grammar.recast, Grammar.check, Grammar.check, checkAll_recastAll ih]
    cases checkAll gs <;> rfl
  | @choice gs _ ih =>
    rw [Grammar.recast, Grammar.check, Grammar.check, checkAll_recastAll ih]
    cases checkAll gs with
    | error f => rfl
    | ok ps => cases ps <;> rfl
  | @bind g f _ _ _ _ ih =>
    rw [Grammar.recast, Grammar.check, Grammar.check, ih]
    cases g.check <;> rfl
  | lazy _ _ => rfl
  | ref => rfl

/-! ## Runs side by side -/

/-- The rule of what stands for an operation on one rule. -/
def Recasting.toRule (R : Recasting) (budget : Nat) (op : Unary) (q : Rule Log) : Rule Log :=
  match R.unary op with
  | some op' => op'.toRule (fun event log => log.push event) budget q
  | none => q

/-- The rule of an operation that is recast is the recast rule, applied to the rule of its part. -/
theorem Parser.toRule_recast_unary (rules : Rules) (run : Parser Factory → Rule Log) (budget : Nat)
    (op : Unary) (p : Parser Factory) :
    ((Parser.unary op p).recast R).toRule (Host.direct rules run) budget
      = R.toRule budget op ((p.recast R).toRule (Host.direct rules run) budget) := by
  rw [Parser.recast, Recasting.toRule]
  cases R.unary op with
  | some op' => rfl
  | none => rfl

namespace Coupling

variable {ι : Type} {K : ι → Coupling Log Log}

/-- Parts that are coupled one by one are coupled as a list. -/
theorem rules_recastAll {K : Coupling Log Log} {host host' : Host Log Factory} {budget : Nat}
    {ps : List (Parser Factory)}
    (h : ∀ p ∈ ps, K.Rules (p.toRule host budget) ((p.recast R).toRule host' budget)) :
    List.Forall₂ K.Rules (Parser.toRules host budget ps)
      (Parser.toRules host' budget (Parser.recastAll R ps)) := by
  induction ps with
  | nil => exact .nil
  | cons p ps ih =>
    exact .cons (h p List.mem_cons_self) (ih fun q hq => h q (List.mem_cons_of_mem p hq))

/-- The parts of a palette run beside what stands for them, in every coupling of a family. -/
structure Recasts (K : ι → Coupling Log Log) (R : Recasting) (P : Palette) : Prop where
  lawful : R.Lawful P
  leaf : ∀ i l, P.leaf l → (K i).Leaves l (R.leaf l)
  unary : ∀ op, P.unary op → ∀ budget p q, (∀ i, (K i).Rules p q) →
    ∀ i, (K i).Rules (op.toRule (fun event log => log.push event) budget p) (R.toRule budget op q)
  fault : ∀ i f, P.fault f → (K i).stop (.fault f) (.fault f)
  output : ∀ i x y, (K i).output x y → R.read y = x

namespace Recasts

/-- A grammar that is built during the parse, and the recast one. -/
theorem build (hK : Recasts K R P) {run run' : Parser Factory → Rule Log}
    (hrun : ∀ p, p.Over P → ∀ i, (K i).Rules (run p) (run' (p.recast R))) {g : Grammar}
    (hg : g.Over P) (hbuild : g.Builds P) (i : ι) :
    (K i).Rules (fun s c => do let p ← Run.lift g.check; run p s c)
      (fun s c => do let p ← Run.lift (g.recast R).check; run' p s c) := by
  intro s t c d hs hc
  rw [hg.check_recast hK.lawful]
  cases hcheck : g.check with
  | error f => exact .stop (hK.fault i f (hbuild f hcheck))
  | ok p => exact hrun p (hg.check hcheck) i hs hc

/-- What a name stands for, and what it stands for when all named grammars are recast. -/
theorem named (hK : Recasts K R P) {rules : Descent.Rules} (hrules : rules.Over P)
    {run run' : Parser Factory → Rule Log}
    (hrun : ∀ p, p.Over P → ∀ i, (K i).Rules (run p) (run' (p.recast R))) (name : Text) (i : ι) :
    (K i).Rules ((Host.direct rules run).enter (.named name))
      ((Host.direct (rules.recast R) run').enter (.named name)) := by
  intro s t c d hs hc
  simp only [Host.direct, Factory.produce, Descent.Rules.recast]
  cases hname : rules name with
  | none => exact .stop (hK.fault i _ (hrules.missing name hname))
  | some g => exact hK.build hrun (hrules.keeps name g hname) (hrules.builds name g hname) i hs hc

/-- One tree beside the recast tree. Named grammars are entered on both sides; how these run is left
open. -/
theorem toRule (hK : Recasts K R P) {rules rules' : Descent.Rules}
    {run run' : Parser Factory → Rule Log}
    (hrun : ∀ p, p.Over P → ∀ i, (K i).Rules (run p) (run' (p.recast R)))
    (hnamed : ∀ name i, (K i).Rules ((Host.direct rules run).enter (.named name))
      ((Host.direct rules' run').enter (.named name)))
    (budget : Nat) {p : Parser Factory} (hp : p.Over P) :
    ∀ i, (K i).Rules (p.toRule (Host.direct rules run) budget)
      ((p.recast R).toRule (Host.direct rules' run') budget) := by
  induction hp with
  | leaf hl =>
    intro i s t c d hs hc
    exact .lift (hK.leaf i _ hl hs hc)
  | unary hop _ ih =>
    intro i
    rw [Parser.toRule_recast_unary]
    exact hK.unary _ hop budget _ _ ih i
  | binary _ _ ihp ihq =>
    intro i
    exact Rules.binary _ budget (ihp i) (ihq i)
  | between _ _ _ iho ihc ihi =>
    intro i
    exact Rules.between (iho i) (ihc i) (ihi i)
  | serial _ ih =>
    intro i
    exact Rules.serial (rules_recastAll fun q hq => ih q hq i)
  | choice _ _ ihp ih =>
    intro i
    exact Rules.choice (ihp i) (rules_recastAll fun q hq => ih q hq i)
  | @bind p f _ hover hbuild hfault ih =>
    intro i
    refine Rules.bind (ih i) ?_
    intro x y hxy s t c d hs hc
    -- the callback of the recast grammar reads the output as that of the grammar, and selects what
    -- that selects
    simp only
    rw [hK.output i x y hxy]
    cases hx : f x with
    | error e => exact .stop (hK.fault i e (hfault x e hx))
    | ok g => exact hK.build hrun (hover x g hx) (hbuild x g hx) i hs hc
  | grammar hg hbuild =>
    intro i
    exact hK.build hrun hg hbuild i
  | named => exact hnamed _

/-- Every direct run of a parser beside that of the recast parser. -/
theorem direct (hK : Recasts K R P) {rules : Descent.Rules} (hrules : rules.Over P) (budget : Nat)
    {p : Parser Factory} (hp : p.Over P) :
    ∀ i, (K i).Rules (p.direct rules budget) ((p.recast R).direct (rules.recast R) budget) := by
  induction budget generalizing p with
  | zero =>
    intro i s t c d _ _
    exact .stop (K i).exhausted
  | succ budget ih =>
    have hrun (q : Parser Factory) (hq : q.Over P) := ih hq
    exact hK.toRule hrun (hK.named hrules hrun) budget hp

end Recasts

end Coupling

end Descent
