import Descent.Proofs.Palette

/-!
# Descent — names and their grammars

A grammar may refer to others by name, and these to others again. What it does depends only on the
names that can be reached in this way: two sets of named grammars that agree on them make no
difference (`Parser.RefersTo.direct_eq`).

* **`Grammar.RefersTo`** — all names in a grammar, and in what it comes to select or to build later,
  are among the known ones.
* **`Rules.Closed`** — so it is for the grammars of the known names themselves.
-/

namespace Descent

inductive Grammar.RefersTo (known : Text → Prop) : Grammar → Prop where
  | terminal {t} : RefersTo known (.terminal t)
  | unary {op g} (hg : RefersTo known g) : RefersTo known (.unary op g)
  | binary {op g h} (hg : RefersTo known g) (hh : RefersTo known h) :
      RefersTo known (.binary op g h)
  | between {opening closing inner} (ho : RefersTo known opening) (hc : RefersTo known closing)
      (hi : RefersTo known inner) : RefersTo known (.between opening closing inner)
  | serial {gs} (h : ∀ g ∈ gs, RefersTo known g) : RefersTo known (.serial gs)
  | choice {gs} (h : ∀ g ∈ gs, RefersTo known g) : RefersTo known (.choice gs)
  | bind {g f} (hg : RefersTo known g) (hf : ∀ x h, f x = .ok h → RefersTo known h) :
      RefersTo known (.bind g f)
  | lazy {g} (hg : RefersTo known g) : RefersTo known (.lazy g)
  | ref {name} (h : known name) : RefersTo known (.ref name)

inductive Parser.RefersTo (known : Text → Prop) : Parser Factory → Prop where
  | leaf {l} : RefersTo known (.leaf l)
  | unary {op p} (hp : RefersTo known p) : RefersTo known (.unary op p)
  | binary {op p q} (hp : RefersTo known p) (hq : RefersTo known q) :
      RefersTo known (.binary op p q)
  | between {opening closing inner} (ho : RefersTo known opening) (hc : RefersTo known closing)
      (hi : RefersTo known inner) : RefersTo known (.between opening closing inner)
  | serial {ps} (h : ∀ p ∈ ps, RefersTo known p) : RefersTo known (.serial ps)
  | choice {p ps} (hp : RefersTo known p) (h : ∀ q ∈ ps, RefersTo known q) :
      RefersTo known (.choice p ps)
  | bind {p f} (hp : RefersTo known p) (hf : ∀ x h, f x = .ok h → h.RefersTo known) :
      RefersTo known (.bind p f)
  | grammar {g} (hg : g.RefersTo known) : RefersTo known (.deferred (.grammar g))
  | named {name} (h : known name) : RefersTo known (.deferred (.named name))

variable {known : Text → Prop}

theorem Grammar.RefersTo.check {g : Grammar} (hg : g.RefersTo known) {p : Parser Factory}
    (h : g.check = .ok p) :
    p.RefersTo known := by
  induction hg generalizing p with
  | terminal =>
    cases cases_of_check h with
    | terminal _ => exact .leaf
  | unary _ ih =>
    cases cases_of_check h with
    | unary hp => exact .unary (ih hp)
  | binary _ _ ihg ihh =>
    cases cases_of_check h with
    | binary hp hq => exact .binary (ihg hp) (ihh hq)
  | between _ _ _ iho ihc ihi =>
    cases cases_of_check h with
    | between hp hq hr => exact .between (iho hp) (ihc hq) (ihi hr)
  | serial _ ih =>
    cases cases_of_check h with
    | serial hps =>
      refine .serial fun p hp => ?_
      obtain ⟨g, hg, hp⟩ := hps p hp
      exact ih g hg hp
  | choice _ ih =>
    cases cases_of_check h with
    | @choice _ p ps hps =>
      have hall : ∀ q ∈ p :: ps, q.RefersTo known := by
        intro q hq
        obtain ⟨g, hg, hq⟩ := hps q hq
        exact ih g hg hq
      exact .choice (hall p List.mem_cons_self) fun q hq => hall q (List.mem_cons_of_mem p hq)
  | bind _ hf ih =>
    cases cases_of_check h with
    | bind hp => exact .bind (ih hp) hf
  | lazy hg =>
    cases cases_of_check h with
    | lazy => exact .grammar hg
  | ref hname =>
    cases cases_of_check h with
    | ref => exact .named hname

/-- The grammars of known names refer to known names only. -/
def Rules.Closed (known : Text → Prop) (rules : Rules) : Prop :=
  ∀ name, known name → ∀ g, rules name = some g → g.RefersTo known

namespace Parser.RefersTo

variable {rules rules' : Rules} {run run' : Parser Factory → Rule Log}

/-- A grammar that is built during the parse. -/
theorem build_eq (hrun : ∀ p, p.RefersTo known → run p = run' p) {g : Grammar}
    (hg : g.RefersTo known) (s : Stream) (c : Value) :
    (Run.lift g.check >>= fun p => run p s c) = Run.lift g.check >>= fun p => run' p s c := by
  cases hcheck : g.check with
  | error f => rfl
  | ok p =>
    show run p s c = run' p s c
    rw [hrun p (hg.check hcheck)]

/-- One tree, with what it builds handed on to two runs that agree. -/
theorem toRule_eq (hclosed : rules.Closed known)
    (hrules : ∀ name, known name → rules name = rules' name)
    (hrun : ∀ p, p.RefersTo known → run p = run' p) (budget : Nat) {p : Parser Factory}
    (hp : p.RefersTo known) :
    p.toRule (Host.direct rules run) budget = p.toRule (Host.direct rules' run') budget := by
  have hall {ps : List (Parser Factory)}
      (h : ∀ p ∈ ps, p.toRule (Host.direct rules run) budget =
        p.toRule (Host.direct rules' run') budget) :
      Parser.toRules (Host.direct rules run) budget ps =
        Parser.toRules (Host.direct rules' run') budget ps := by
    rw [Parser.toRules_eq_map, Parser.toRules_eq_map]
    exact List.map_congr_left h
  induction hp with
  | leaf => rfl
  | @unary op _ _ ih =>
    -- an operation meets its host in the log alone, and both hosts keep the same log
    show op.toRule _ budget _ = op.toRule _ budget _
    rw [ih]
    rfl
  | binary _ _ ihp ihq => rw [Parser.toRule, Parser.toRule, ihp, ihq]
  | between _ _ _ iho ihc ihi => rw [Parser.toRule, Parser.toRule, iho, ihc, ihi]
  | serial _ ih => rw [Parser.toRule, Parser.toRule, hall ih]
  | choice _ _ ihp ih => rw [Parser.toRule, Parser.toRule, ihp, hall ih]
  | @bind p f _ hf ih =>
    rw [Parser.toRule, Parser.toRule, ih]
    congr 1
    funext x s c
    cases hx : f x with
    | error e => rfl
    | ok g => exact build_eq hrun (hf x g hx) s c
  | grammar hg =>
    funext s c
    exact build_eq hrun hg s c
  | @named name hname =>
    funext s c
    rw [Parser.toRule, Parser.toRule]
    simp only [Host.direct, Factory.produce, ← hrules name hname]
    cases hg : rules name with
    | none => rfl
    | some g => exact build_eq hrun (hclosed name hname g hg) s c

/-- **A parser depends on the names it can reach.** Named grammars that agree on these give the same
runs. -/
theorem direct_eq (hclosed : rules.Closed known)
    (hrules : ∀ name, known name → rules name = rules' name) {p : Parser Factory}
    (hp : p.RefersTo known) (budget : Nat) : p.direct rules budget = p.direct rules' budget := by
  induction budget generalizing p with
  | zero => rfl
  | succ budget ih =>
    rw [Parser.direct, Parser.direct]
    exact toRule_eq hclosed hrules (fun q hq => ih hq) budget hp

end Parser.RefersTo

end Descent
