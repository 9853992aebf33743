import Descent.Proofs.Coupling

/-!
# Descent — which parsers a statement is about

A statement about all parsers of some sort has to reach the parsers that are not in the tree: the
grammars under `lazy`, those that `ref` names, and those that a `bind` selects from an output. A
`Palette` says which leaves, operations and faults may occur, and `Grammar.Over` that a grammar
keeps to it through all of these.

* **`Grammar.cases_of_check`** — a grammar and the parser that it builds have the same shape, part
  by part.
* **`Grammar.Over.check`** — what a grammar over a palette builds is a parser over it.
* **`Coupling.Rules.direct`** — a coupling that grants everything in a palette couples every parser
  over it with itself, by induction on the budget and, for each budget, on the parser.
-/

namespace Descent

/-- Which leaves and operations may occur in a parser, and with which faults the building of its
parts may end the parse. -/
structure Palette where
  leaf : Leaf → Prop
  unary : Unary → Prop
  fault : Fault → Prop

/-- The grammar can be built, or else its fault is in the palette. -/
def Grammar.Builds (P : Palette) (g : Grammar) : Prop :=
  ∀ f, g.check = .error f → P.fault f

/-- The grammar, with all that it may come to select or to build later, keeps to the palette. -/
inductive Grammar.Over (P : Palette) : Grammar → Prop where
  | terminal {t} (h : ∀ l, t.check = .ok l → P.leaf l) : Over P (.terminal t)
  | unary {op g} (hop : P.unary op) (hg : Over P g) : Over P (.unary op g)
  | binary {op g h} (hg : Over P g) (hh : Over P h) : Over P (.binary op g h)
  | between {opening closing inner} (ho : Over P opening) (hc : Over P closing)
      (hi : Over P inner) :
      Over P (.between opening closing inner)
  | serial {gs} (h : ∀ g ∈ gs, Over P g) : Over P (.serial gs)
  | choice {gs} (h : ∀ g ∈ gs, Over P g) : Over P (.choice gs)
  | bind {g f} (hg : Over P g) (hover : ∀ x h, f x = .ok h → Over P h)
      (hbuild : ∀ x h, f x = .ok h → h.Builds P)
      (hfault : ∀ x e, f x = .error e → P.fault e) : Over P (.bind g f)
  | lazy {g} (hg : Over P g) (hbuild : g.Builds P) : Over P (.lazy g)
  | ref {name} : Over P (.ref name)

theorem Grammar.Over.leaf {P : Palette} {l : Leaf} (h : P.leaf l) : (Grammar.leaf l).Over P := by
  refine .terminal fun l' hl => ?_
  cases hl
  exact h

theorem Grammar.Over.char {P : Palette} {c : Char} (h : P.leaf (.char (.exactly c.toNat))) :
    (Grammar.char c).Over P := by
  refine .terminal fun l hl => ?_
  cases hl
  exact h

/-- Every grammar that can be named keeps to the palette. -/
structure Rules.Over (P : Palette) (rules : Rules) : Prop where
  keeps : ∀ name g, rules name = some g → g.Over P
  builds : ∀ name g, rules name = some g → g.Builds P
  missing : ∀ name, rules name = none → P.fault (.missingKey (Text.Quoted.text name))

/-- The checked parser keeps to the palette. -/
inductive Parser.Over (P : Palette) : Parser Factory → Prop where
  | leaf {l} (h : P.leaf l) : Over P (.leaf l)
  | unary {op p} (hop : P.unary op) (hp : Over P p) : Over P (.unary op p)
  | binary {op p q} (hp : Over P p) (hq : Over P q) : Over P (.binary op p q)
  | between {opening closing inner} (ho : Over P opening) (hc : Over P closing)
      (hi : Over P inner) :
      Over P (.between opening closing inner)
  | serial {ps} (h : ∀ p ∈ ps, Over P p) : Over P (.serial ps)
  | choice {p ps} (hp : Over P p) (h : ∀ q ∈ ps, Over P q) : Over P (.choice p ps)
  | bind {p f} (hp : Over P p) (hover : ∀ x h, f x = .ok h → h.Over P)
      (hbuild : ∀ x h, f x = .ok h → h.Builds P)
      (hfault : ∀ x e, f x = .error e → P.fault e) : Over P (.bind p f)
  | grammar {g} (hg : g.Over P) (hbuild : g.Builds P) : Over P (.deferred (.grammar g))
  | named {name} : Over P (.deferred (.named name))

/-! ## Building -/

/-- Where a computation in two steps succeeds, both steps do. -/
theorem ok_of_bind {ε α β : Type} {first : Except ε α} {next : α → Except ε β} {b : β}
    (h : first >>= next = .ok b) :
    ∃ a, first = .ok a ∧ next a = .ok b := by
  cases hfirst : first with
  | error e =>
    rw [hfirst] at h
    cases h
  | ok a =>
    rw [hfirst] at h
    exact ⟨a, rfl, h⟩

/-- Each parser of a list was built from a grammar of the list. -/
theorem Grammar.mem_of_checkAll {gs : List Grammar} {ps : List (Parser Factory)}
    (h : checkAll gs = .ok ps) :
    ∀ p ∈ ps, ∃ g ∈ gs, g.check = .ok p := by
  induction gs generalizing ps with
  | nil =>
    cases h
    exact fun p hp => nomatch hp
  | cons g gs ih =>
    rw [checkAll] at h
    obtain ⟨p, hp, h⟩ := ok_of_bind h
    obtain ⟨ps, hps, h⟩ := ok_of_bind h
    cases h
    intro q hq
    rcases List.mem_cons.mp hq with rfl | hq
    · exact ⟨g, List.mem_cons_self, hp⟩
    · obtain ⟨g', hg', hq⟩ := ih hps q hq
      exact ⟨g', List.mem_cons_of_mem g hg', hq⟩

/-- How a grammar and the parser that it builds hang together, one case for each way to make a
grammar. -/
inductive Grammar.CheckCases : Grammar → Parser Factory → Prop where
  | terminal {t l} (h : t.check = .ok l) : CheckCases (.terminal t) (.leaf l)
  | unary {op g p} (hg : g.check = .ok p) : CheckCases (.unary op g) (.unary op p)
  | binary {op g h p q} (hg : g.check = .ok p) (hh : h.check = .ok q) :
      CheckCases (.binary op g h) (.binary op p q)
  | between {opening closing inner p q r} (ho : opening.check = .ok p) (hc : closing.check = .ok q)
      (hi : inner.check = .ok r) : CheckCases (.between opening closing inner) (.between p q r)
  | serial {gs ps} (h : ∀ p ∈ ps, ∃ g ∈ gs, g.check = .ok p) : CheckCases (.serial gs) (.serial ps)
  | choice {gs p ps} (h : ∀ q ∈ p :: ps, ∃ g ∈ gs, g.check = .ok q) :
      CheckCases (.choice gs) (.choice p ps)
  | bind {g f p} (hg : g.check = .ok p) : CheckCases (.bind g f) (.bind p f)
  | lazy {g} : CheckCases (.lazy g) (.deferred (.grammar g))
  | ref {name} : CheckCases (.ref name) (.deferred (.named name))

theorem Grammar.cases_of_check {g : Grammar} {p : Parser Factory} (h : g.check = .ok p) :
    CheckCases g p := by
  cases g with
  | terminal t =>
    rw [Grammar.check] at h
    obtain ⟨l, hl, h⟩ := ok_of_bind h
    cases h
    exact .terminal hl
  | unary op g =>
    rw [Grammar.check] at h
    obtain ⟨p, hp, h⟩ := ok_of_bind h
    obtain ⟨_, _, h⟩ := ok_of_bind h
    cases h
    exact .unary hp
  | binary op g h' =>
    rw [Grammar.check] at h
    obtain ⟨p, hp, h⟩ := ok_of_bind h
    obtain ⟨q, hq, h⟩ := ok_of_bind h
    obtain ⟨_, _, h⟩ := ok_of_bind h
    cases h
    exact .binary hp hq
  | between opening closing inner =>
    rw [Grammar.check] at h
    obtain ⟨p, hp, h⟩ := ok_of_bind h
    obtain ⟨q, hq, h⟩ := ok_of_bind h
    obtain ⟨r, hr, h⟩ := ok_of_bind h
    cases h
    exact .between hp hq hr
  | serial gs =>
    rw [Grammar.check] at h
    obtain ⟨ps, hps, h⟩ := ok_of_bind h
    cases h
    exact .serial (mem_of_checkAll hps)
  | choice gs =>
    rw [Grammar.check] at h
    obtain ⟨ps, hps, h⟩ := ok_of_bind h
    cases ps with
    | nil => cases h
    | cons p ps =>
      cases h
      exact .choice (mem_of_checkAll hps)
  | bind g f =>
    rw [Grammar.check] at h
    obtain ⟨p, hp, h⟩ := ok_of_bind h
    cases h
    exact .bind hp
  | lazy g =>
    rw [Grammar.check] at h
    cases h
    exact .lazy
  | ref name =>
    rw [Grammar.check] at h
    cases h
    exact .ref

/-- What a grammar over a palette builds is a parser over it. -/
theorem Grammar.Over.check {P : Palette} {g : Grammar} (hg : g.Over P) {p : Parser Factory}
    (h : g.check = .ok p) :
    p.Over P := by
  induction hg generalizing p with
  | terminal hleaf =>
    cases cases_of_check h with
    | terminal hl => exact .leaf (hleaf _ hl)
  | unary hop _ ih =>
    cases cases_of_check h with
    | unary hp => exact .unary hop (ih hp)
  | binary _ _ ihg ihh =>
    cases cases_of_check h with
    | binary hp hq => exact .binary (ihg hp) (ihh hq)
  | between _ _ _ iho ihc ihi =>
    cases cases_of_check h with
    | between hp hq hr => exact .between (iho hp) (ihc hq) (ihi hr)
  | serial _ ih =>
    cases cases_of_check h with
    | serial hps =>
      refine .serial fun p hp => ?_
      obtain ⟨g, hg, hp⟩ := hps p hp
      exact ih g hg hp
  | choice _ ih =>
    cases cases_of_check h with
    | @choice _ p ps hps =>
      have hall : ∀ q ∈ p :: ps, q.Over P := by
        intro q hq
        obtain ⟨g, hg, hq⟩ := hps q hq
        exact ih g hg hq
      exact .choice (hall p List.mem_cons_self) fun q hq => hall q (List.mem_cons_of_mem p hq)
  | bind _ hover hbuild hfault ih =>
    cases cases_of_check h with
    | bind hp => exact .bind (ih hp) hover hbuild hfault
  | lazy hg hbuild =>
    -- what is deferred is checked only later, so it is kept as it is
    cases cases_of_check h with
    | lazy => exact .grammar hg hbuild
  | ref =>
    cases cases_of_check h with
    | ref => exact .named

/-! ## Coupling a parser with itself -/

namespace Coupling

/-- Two leaves that run alike. -/
def Leaves {σ τ : Type} (K : Coupling σ τ) (l l' : Leaf) : Prop :=
  ∀ ⦃s t c d⦄, K.stream s t → K.context c d → K.Excepts K.Results (l.run s c) (l'.run t d)

/-- A coupling of direct runs that grants all that a palette holds. Outputs must be equal for `bind`
to select equal grammars. -/
structure Grants (K : Coupling Log Log) (P : Palette) : Prop where
  leaf : ∀ l, P.leaf l → K.Leaves l l
  unary : ∀ op, P.unary op →
    K.Allows (fun event log => log.push event) (fun event log => log.push event) op
  fault : ∀ f, P.fault f → K.stop (.fault f) (.fault f)
  output : ∀ x y, K.output x y → x = y

variable {K : Coupling Log Log} {P : Palette}

/-- A grammar that is built during the parse. -/
theorem Rules.build (hK : K.Grants P) {run : Parser Factory → Rule Log}
    (hrun : ∀ p, p.Over P → K.Rules (run p) (run p)) {g : Grammar} (hg : g.Over P)
    (hbuild : g.Builds P) {s t : Stream} {c d : Value} (hs : K.stream s t) (hc : K.context c d) :
    K.Runs K.Results (Run.lift g.check >>= fun p => run p s c)
      (Run.lift g.check >>= fun p => run p t d) := by
  have hcheck : K.Excepts (fun p q => p = q ∧ p.Over P) g.check g.check :=
    .refl (fun p hp => ⟨rfl, hg.check hp⟩) fun f hf => hK.fault f (hbuild f hf)
  refine (Runs.lift hcheck).bind ?_
  rintro p _ ⟨rfl, hp⟩
  exact hrun p hp hs hc

/-- One tree, followed down to its leaves. -/
theorem Rules.toRule (hK : K.Grants P) {rules : Descent.Rules} (hrules : rules.Over P)
    {run : Parser Factory → Rule Log} (hrun : ∀ p, p.Over P → K.Rules (run p) (run p))
    (budget : Nat) {p : Parser Factory} (hp : p.Over P) :
    K.Rules (p.toRule (Host.direct rules run) budget)
      (p.toRule (Host.direct rules run) budget) := by
  induction hp with
  | leaf hl =>
    intro s t c d hs hc
    exact .lift (hK.leaf _ hl hs hc)
  | unary hop _ ih => exact Rules.unary (hK.unary _ hop) budget ih
  | binary _ _ ihp ihq => exact Rules.binary _ budget ihp ihq
  | between _ _ _ iho ihc ihi => exact Rules.between iho ihc ihi
  | serial _ ih =>
    rw [Parser.toRule, Parser.toRules_eq_map]
    refine Rules.serial (List.forall₂_same.mpr fun q hq => ?_)
    obtain ⟨p, hp, rfl⟩ := List.mem_map.mp hq
    exact ih p hp
  | choice _ _ ihp ih =>
    rw [Parser.toRule, Parser.toRules_eq_map]
    refine Rules.choice ihp (List.forall₂_same.mpr fun q hq => ?_)
    obtain ⟨p, hp, rfl⟩ := List.mem_map.mp hq
    exact ih p hp
  | bind _ hover hbuild hfault ih =>
    rw [Parser.toRule]
    refine Rules.bind ih ?_
    intro x y hxy s t c d hs hc
    obtain rfl := hK.output x y hxy
    -- equal outputs select equal grammars, and these are over the palette again
    refine (Runs.lift (.refl (R := fun g h => g = h ∧ g.Over P ∧ g.Builds P) ?_ ?_)).bind ?_
    · exact fun g hg => ⟨rfl, hover x g hg, hbuild x g hg⟩
    · exact fun e he => hK.fault e (hfault x e he)
    · rintro g _ ⟨rfl, hg, hb⟩
      exact Rules.build hK hrun hg hb hs hc
  | grammar hg hbuild =>
    intro s t c d hs hc
    exact Rules.build hK hrun hg hbuild hs hc
  | @named name =>
    intro s t c d hs hc
    refine (Runs.lift (.refl (R := fun g h => g = h ∧ g.Over P ∧ g.Builds P) ?_ ?_)).bind ?_
    · intro g hg
      cases hname : rules name with
      | none =>
        rw [Factory.produce, hname] at hg
        cases hg
      | some h =>
        rw [Factory.produce, hname] at hg
        cases hg
        exact ⟨rfl, hrules.keeps name g hname, hrules.builds name g hname⟩
    · intro f hf
      cases hname : rules name with
      | none =>
        rw [Factory.produce, hname] at hf
        cases hf
        exact hK.fault _ (hrules.missing name hname)
      | some h =>
        rw [Factory.produce, hname] at hf
        cases hf
    · rintro g _ ⟨rfl, hg, hb⟩
      exact Rules.build hK hrun hg hb hs hc

/-- Every direct run of a parser over the palette is coupled with itself. -/
theorem Rules.direct (hK : K.Grants P) {rules : Descent.Rules} (hrules : rules.Over P)
    (budget : Nat) {p : Parser Factory} (hp : p.Over P) :
    K.Rules (p.direct rules budget) (p.direct rules budget) := by
  induction budget generalizing p with
  | zero =>
    intro s t c d hs hc
    exact .stop K.exhausted
  | succ budget ih =>
    -- what is built during the parse runs on the smaller budget
    exact Rules.toRule hK hrules (fun q hq => ih hq) budget hp

end Coupling

end Descent
