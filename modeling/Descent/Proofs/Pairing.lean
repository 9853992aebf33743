import Descent.Meaning
import Mathlib.Data.List.Forall2

/-!
# Descent — relations that sequencing keeps

A coupling follows two runs from related states to related states. Some things that are true of all
parsers have no such form: that a run finds with a larger budget what it has found with a smaller
one says nothing of runs that are exhausted, and that it finds again what it found before depends on
where the first run will have ended. They are relations between whole runs, and it is enough that
sequencing keeps them, since every rule is made of its parts by sequencing. Both sides return the
same values.

* **`Pairing`** — a relation between runs that returning, stopping and sequencing keep.
* **one lemma for each combinator** — paired parts make paired rules. The loops may have different
  budgets, if a run that is exhausted is paired with any other (`Pairing.Budgets`).
* **`Parser.Reaches`** — what a parser reaches outside of its tree; **`Pairing.Rules.toRule`** asks
  for pairs there.
* **`Parser.direct_settled`** — the first use: a run that is not exhausted ends in the same way with
  any larger budget and any log.
-/

namespace Descent

/-- A relation between runs that return the same values. -/
structure Pairing (σ τ : Type) where
  rel : {α : Type} → Run σ α → Run τ α → Prop
  pure : ∀ {α : Type} (a : α), rel (Pure.pure a) (Pure.pure a)
  stop : ∀ {α : Type} (e : Stop), rel (Run.stop e : Run σ α) (Run.stop e)
  bind : ∀ {α β : Type} {x : Run σ α} {y : Run τ α} {f : α → Run σ β} {g : α → Run τ β},
    rel x y → (∀ a, rel (f a) (g a)) → rel (x >>= f) (y >>= g)

namespace Pairing

variable {σ τ δ : Type} (P : Pairing σ τ)

/-- Two rules that are paired at every stream and in every context. -/
def Rules (p : Rule σ) (q : Rule τ) : Prop :=
  ∀ s c, P.rel (p s c) (q s c)

/-- The budgets of two loops: the same, unless an exhausted run is paired with any other. -/
structure Budgets (budget budget' : Nat) : Prop where
  le : budget ≤ budget'
  exhausted : budget < budget' → ∀ {α : Type} (y : Run τ α), P.rel (Run.stop .exhausted) y

variable {P}

/-- With one budget for both loops nothing is asked of exhausted runs. -/
theorem Budgets.refl (budget : Nat) : P.Budgets budget budget :=
  ⟨Nat.le_refl _, fun h => absurd h (Nat.lt_irrefl _)⟩

/-- A turn takes one from each budget, and the smaller one stays the smaller. -/
theorem Budgets.pred {budget budget' : Nat} (h : P.Budgets (budget + 1) (budget' + 1)) :
    P.Budgets budget budget' :=
  ⟨Nat.le_of_succ_le_succ h.le, fun hlt => h.exhausted (Nat.succ_lt_succ hlt)⟩

/-- A computation without state is a value or a fault, and is paired with itself as either. -/
theorem lift {α : Type} (x : Except Fault α) : P.rel (Run.lift x) (Run.lift x) := by
  cases x with
  | ok a => exact P.pure a
  | error f => exact P.stop (.fault f)

/-! ## Sequencing and choice -/

variable {p q r : Rule σ} {p' q' r' : Rule τ}

theorem Rules.map (hp : P.Rules p p') (f : Value → Except Fault Value) :
    P.Rules (p.map f) (p'.map f) := by
  intro s c
  apply P.bind (hp s c)
  rintro (⟨t, x, d⟩ | ⟨t, e, d⟩)
  · exact P.bind (lift (f x)) fun y => P.pure _
  · exact P.pure _

/-- Only a failure is rewritten, and it is the same failure on both sides. -/
theorem Rules.mapError (hp : P.Rules p p') (f : Value → Except Fault Value) :
    P.Rules (p.mapError f) (p'.mapError f) := by
  intro s c
  apply P.bind (hp s c)
  rintro (⟨t, x, d⟩ | ⟨t, e, d⟩)
  · exact P.pure _
  · exact P.bind (lift (f e)) fun y => P.pure _

/-- The rule that is selected depends on the output alone, so both sides select a pair. -/
theorem Rules.bind {f : Value → Rule σ} {g : Value → Rule τ} (hp : P.Rules p p')
    (hf : ∀ x, P.Rules (f x) (g x)) :
    P.Rules (p.bind f) (p'.bind g) := by
  intro s c
  apply P.bind (hp s c)
  rintro (⟨t, x, d⟩ | ⟨t, e, d⟩)
  · exact hf x t d
  · exact P.pure _

/-- The second parts are only run where both first parts have succeeded, which they do together. -/
theorem Rules.both (hp : P.Rules p p') (hq : P.Rules q q') : P.Rules (p.both q) (p'.both q') := by
  intro s c
  apply P.bind (hp s c)
  rintro (⟨t, x, d⟩ | ⟨t, e, d⟩)
  · apply P.bind (hq t d)
    rintro (_ | _) <;> exact P.pure _
  · exact P.pure _

/-- The output of the second part is dropped, its stream and context are not. -/
theorem Rules.keepLeft (hp : P.Rules p p') (hq : P.Rules q q') :
    P.Rules (p.keepLeft q) (p'.keepLeft q') := by
  intro s c
  apply P.bind (hp s c)
  rintro (⟨t, x, d⟩ | ⟨t, e, d⟩)
  · apply P.bind (hq t d)
    rintro (_ | _) <;> exact P.pure _
  · exact P.pure _

theorem Rules.keepRight (hp : P.Rules p p') (hq : P.Rules q q') :
    P.Rules (p.keepRight q) (p'.keepRight q') := by
  intro s c
  apply P.bind (hp s c)
  rintro (⟨t, x, d⟩ | ⟨t, e, d⟩)
  · exact hq t d
  · exact P.pure _

/-- The inner rule with the closing one behind it, started where the opening one ends. -/
theorem Rules.between (hp : P.Rules p p') (hq : P.Rules q q') (hr : P.Rules r r') :
    P.Rules (Rule.between p q r) (Rule.between p' q' r') := by
  intro s c
  apply P.bind (hp s c)
  rintro (⟨t, x, d⟩ | ⟨t, e, d⟩)
  · exact hr.keepLeft hq t d
  · exact P.pure _

/-- The outputs that were gathered so far are the same; the induction is on the rules that are
left. -/
theorem Rules.serialOnto {ps : List (Rule σ)} {qs : List (Rule τ)} (h : List.Forall₂ P.Rules ps qs)
    (gathered : List Value) :
    P.Rules (Rule.serialOnto gathered ps) (Rule.serialOnto gathered qs) := by
  induction h generalizing gathered with
  | nil =>
    intro s c
    exact P.pure _
  | cons hp _ ih =>
    intro s c
    apply P.bind (hp s c)
    rintro (⟨t, x, d⟩ | ⟨t, e, d⟩)
    · exact ih (x :: gathered) t d
    · exact P.pure _

/-- Both second parts start where the first ones did, which is one place. -/
theorem Rules.orElse (hp : P.Rules p p') (hq : P.Rules q q') :
    P.Rules (p.orElse q) (p'.orElse q') := by
  intro s c
  apply P.bind (hp s c)
  rintro (⟨t, x, d⟩ | ⟨t, e, d⟩)
  · exact P.pure _
  · exact hq s c

/-- The alternatives are tried in pairs, by induction on their list. -/
theorem Rules.choice {ps : List (Rule σ)} {qs : List (Rule τ)} (hp : P.Rules p p')
    (h : List.Forall₂ P.Rules ps qs) :
    P.Rules (Rule.choice p ps) (Rule.choice p' qs) := by
  induction h generalizing p p' with
  | nil => exact hp
  | cons hq _ ih => exact hp.orElse (ih hq)

/-- A failure becomes a success without output on both sides at once. -/
theorem Rules.optional (hp : P.Rules p p') : P.Rules p.optional p'.optional := by
  intro s c
  apply P.bind (hp s c)
  rintro (_ | _) <;> exact P.pure _

/-! ## Repetition

Where the budgets differ, the first loop is the one that may be exhausted before the other. -/

variable {budget budget' : Nat}

/-- The induction is on the smaller budget. Where it alone is used up, the left loop is exhausted,
and that is paired with whatever the right one goes on to do. -/
theorem Rules.repeatFrom (hp : P.Rules p p') (h : P.Budgets budget budget') (most : Count)
    (w : Rule.Sweep) :
    P.rel (Rule.repeatFrom p budget most w) (Rule.repeatFrom p' budget' most w) := by
  induction budget generalizing budget' most w with
  | zero =>
    cases budget' with
    | zero => exact P.stop _
    | succ budget' => exact h.exhausted (Nat.succ_pos _) _
  | succ budget ih =>
    obtain ⟨budget', rfl⟩ := Nat.exists_eq_add_of_le' (Nat.le_of_add_left_le h.le)
    unfold Rule.repeatFrom
    split
    · apply P.bind (hp w.stream w.context)
      rintro (⟨s, x, c⟩ | ⟨s, e, c⟩)
      · exact ih h.pred most.pred (w.push s x c)
      · exact P.pure _
    · exact P.pure _

theorem Rules.many (hp : P.Rules p p') (h : P.Budgets budget budget') (least most : Count) :
    P.Rules (Rule.many budget least most p) (Rule.many budget' least most p') :=
  fun _ _ => P.bind (hp.repeatFrom h most _) fun _ => P.pure _

/-- Behind a first success there is a loop of which nothing is left to ask. -/
theorem Rules.many1 (hp : P.Rules p p') (h : P.Budgets budget budget') :
    P.Rules (Rule.many1 budget p) (Rule.many1 budget' p') := by
  intro s c
  apply P.bind (hp s c)
  rintro (⟨t, x, d⟩ | ⟨t, e, d⟩)
  · exact P.bind (hp.repeatFrom h .infinite _) fun _ => P.pure _
  · exact P.pure _

/-- A turn asks the end first and the part afterwards; the induction is on the smaller budget. -/
theorem Rules.untilFrom (hp : P.Rules p p') (hq : P.Rules q q') (h : P.Budgets budget budget')
    (w : Rule.Sweep) :
    P.rel (Rule.untilFrom p q budget w) (Rule.untilFrom p' q' budget' w) := by
  induction budget generalizing budget' w with
  | zero =>
    cases budget' with
    | zero => exact P.stop _
    | succ budget' => exact h.exhausted (Nat.succ_pos _) _
  | succ budget ih =>
    obtain ⟨budget', rfl⟩ := Nat.exists_eq_add_of_le' (Nat.le_of_add_left_le h.le)
    unfold Rule.untilFrom
    apply P.bind (hq w.stream w.context)
    rintro (_ | _)
    · exact P.pure _
    · apply P.bind (hp w.stream w.context)
      rintro (⟨s, x, c⟩ | ⟨s, e, c⟩)
      · exact ih h.pred (w.push s x c)
      · exact P.pure _

/-- The loop with separators. The attempt is the same on both sides, and so is the sweep, which
stands before or behind the separator. -/
theorem Rules.separatedFrom (hq : P.Rules q q') (hp : P.Rules p p') (trailing : Rule.Trailing)
    (h : P.Budgets budget budget') (most : Count) (w : Rule.Sweep) (attempt : Result) :
    P.rel (Rule.separatedFrom q p trailing budget most w attempt)
      (Rule.separatedFrom q' p' trailing budget' most w attempt) := by
  induction budget generalizing budget' most w attempt with
  | zero =>
    cases attempt with
    | err s e c => cases budget' <;> exact P.pure _
    | ok s x c =>
      cases budget' with
      | zero => exact P.stop _
      | succ budget' => exact h.exhausted (Nat.succ_pos _) _
  | succ budget ih =>
    -- a turn on both sides, where the right one may have more turns left
    obtain ⟨budget', rfl⟩ := Nat.exists_eq_add_of_le' (Nat.le_of_add_left_le h.le)
    cases attempt with
    | err s e c => exact P.pure _
    | ok s x c =>
      unfold Rule.separatedFrom
      split
      · -- the separator, and then the item if the maximum admits one more
        apply P.bind (hq s c)
        rintro (⟨t, y, d⟩ | ⟨t, e, d⟩)
        · simp only
          split
          · exact P.bind (hp t d) fun attempt => ih h.pred most.pred _ attempt
          · exact P.pure _
        · exact P.pure _
      · exact P.pure _

/-- The loop begins with an attempt at the first item, which both sides make at one place. -/
theorem Rules.separated (hq : P.Rules q q') (hp : P.Rules p p') (trailing : Rule.Trailing)
    (h : P.Budgets budget budget') (least most : Count) :
    P.Rules (Rule.separated trailing budget least most q p)
      (Rule.separated trailing budget' least most q' p') := by
  intro s c
  apply P.bind (hp s c)
  intro attempt
  exact P.bind (hq.separatedFrom hp trailing h most _ attempt) fun _ => P.pure _

theorem Rules.separated1 (hq : P.Rules q q') (hp : P.Rules p p') (trailing : Rule.Trailing)
    (h : P.Budgets budget budget') :
    P.Rules (Rule.separated1 trailing budget q p) (Rule.separated1 trailing budget' q' p') := by
  intro s c
  apply P.bind (hp s c)
  rintro (⟨t, x, d⟩ | ⟨t, e, d⟩)
  · exact P.bind (hq.separatedFrom hp trailing h .infinite _ _) fun _ => P.pure _
  · exact P.pure _

/-! ## Operations of a grammar -/

/-- Two logs that take every event as a paired step. -/
def Notes (P : Pairing σ τ) (note : Event → σ → σ) (note' : Event → τ → τ) : Prop :=
  ∀ event, P.rel (Run.update (note event)) (Run.update (note' event))

/-- Noting an event is a step of its own on each side, before and after the rule. -/
theorem Rules.traced {note : Event → σ → σ} {note' : Event → τ → τ} (hp : P.Rules p p')
    (hnote : P.Notes note note') (label : Text) :
    P.Rules (Rule.traced note label p) (Rule.traced note' label p') := by
  intro s c
  apply P.bind (hnote _)
  intro _
  apply P.bind (hp s c)
  intro result
  exact P.bind (hnote _) fun _ => P.pure _

/-- A context that is no table stops both sides, and the tracker that is put in is the same. -/
theorem Rules.tracked (hp : P.Rules p p') : P.Rules (Rule.tracked p) (Rule.tracked p') := by
  intro s c
  unfold Rule.tracked
  split
  · exact hp s _
  · exact P.stop _

/-- A hook looks at streams, contexts and results, and these are the same on both sides. -/
theorem Rules.hooked (hp : P.Rules p p') (hook : Hook) :
    P.Rules (Rule.hooked hook p) (Rule.hooked hook p') := by
  intro s c
  apply P.bind (lift (hook.before s c))
  rintro (d | result)
  · exact P.bind (hp s d) fun result => lift (hook.after result)
  · exact P.pure _

/-- One case for each operation, and the budgets matter to the loops only. -/
theorem Rules.unary {note : Event → σ → σ} {note' : Event → τ → τ} (hp : P.Rules p p')
    (hnote : P.Notes note note') (h : P.Budgets budget budget') (op : Unary) :
    P.Rules (op.toRule note budget p) (op.toRule note' budget' p') := by
  cases op with
  | map f => exact hp.map f
  | mapError f => exact hp.mapError f
  | optional => exact hp.optional
  | many least most => exact hp.many h least most
  | many1 => exact hp.many1 h
  | trimmed => exact fun s c => P.bind (lift s.skipBlanks) fun t => hp t c
  | tracked => exact hp.tracked
  | context initial => exact hp
  | traced label => exact hp.traced hnote label
  | hooked hook => exact hp.hooked hook

theorem Rules.binary (hp : P.Rules p p') (hq : P.Rules q q') (h : P.Budgets budget budget')
    (op : Binary) :
    P.Rules (op.toRule budget p q) (op.toRule budget' p' q') := by
  cases op with
  | both => exact hp.both hq
  | keepLeft => exact hp.keepLeft hq
  | keepRight => exact hp.keepRight hq
  | orElse => exact hp.orElse hq
  | manyUntil => exact fun s c => hp.untilFrom hq h (.start s c)
  | separated trailing least most => exact hp.separated hq trailing h least most
  | separated1 trailing => exact hp.separated1 hq trailing h

end Pairing

/-! ## Whole parsers -/

/-- All that a parser reaches outside of its tree: the places of its deferred parsers, and the
grammars that its binds may select. -/
inductive Parser.Reaches {δ : Type} (D : δ → Prop) (E : Grammar → Prop) : Parser δ → Prop where
  | leaf {l} : Reaches D E (.leaf l)
  | unary {op p} (hp : Reaches D E p) : Reaches D E (.unary op p)
  | binary {op p q} (hp : Reaches D E p) (hq : Reaches D E q) : Reaches D E (.binary op p q)
  | between {opening closing inner} (ho : Reaches D E opening) (hc : Reaches D E closing)
      (hi : Reaches D E inner) :
      Reaches D E (.between opening closing inner)
  | serial {ps} (h : ∀ p ∈ ps, Reaches D E p) : Reaches D E (.serial ps)
  | choice {p ps} (hp : Reaches D E p) (h : ∀ q ∈ ps, Reaches D E q) : Reaches D E (.choice p ps)
  | bind {p f} (hp : Reaches D E p) (hf : ∀ x g, f x = .ok g → E g) : Reaches D E (.bind p f)
  | deferred {d} (hd : D d) : Reaches D E (.deferred d)

/-- With nothing asked of it, all that a parser can reach may be reached. -/
theorem Parser.reaches_any {δ : Type} (p : Parser δ) :
    p.Reaches (fun _ => True) (fun _ => True) := by
  induction p using Parser.induction with
  | leaf l => exact .leaf
  | unary op p ih => exact .unary ih
  | binary op p q ihp ihq => exact .binary ihp ihq
  | between opening closing inner iho ihc ihi => exact .between iho ihc ihi
  | serial ps ih => exact .serial ih
  | choice p ps ihp ih => exact .choice ihp ih
  | bind p f ih => exact .bind ih fun _ _ _ => trivial
  | deferred d => exact .deferred trivial

namespace Pairing

variable {σ τ δ : Type} {P : Pairing σ τ} {host : Host σ δ} {host' : Host τ δ}
  {budget budget' : Nat}

theorem rules_toRules {ps : List (Parser δ)}
    (h : ∀ p ∈ ps, P.Rules (p.toRule host budget) (p.toRule host' budget')) :
    List.Forall₂ P.Rules (Parser.toRules host budget ps) (Parser.toRules host' budget' ps) := by
  induction ps with
  | nil => exact .nil
  | cons p ps ih =>
    exact .cons (h p List.mem_cons_self) (ih fun q hq => h q (List.mem_cons_of_mem p hq))

/-- One tree under two hosts. -/
theorem Rules.toRule (h : P.Budgets budget budget') (hnote : P.Notes host.note host'.note)
    {D : δ → Prop} (henter : ∀ d, D d → P.Rules (host.enter d) (host'.enter d)) {E : Grammar → Prop}
    (hstart : ∀ g, E g → P.Rules (host.start g) (host'.start g)) {p : Parser δ}
    (hp : p.Reaches D E) :
    P.Rules (p.toRule host budget) (p.toRule host' budget') := by
  induction hp with
  | leaf => exact fun s c => lift _
  | unary _ ih => exact ih.unary hnote h _
  | binary _ _ ihp ihq => exact ihp.binary ihq h _
  | between _ _ _ iho ihc ihi => exact iho.between ihc ihi
  | serial _ ih => exact Rules.serialOnto (rules_toRules ih) []
  | choice _ _ ihp ih => exact ihp.choice (rules_toRules ih)
  | @bind p f _ hf ih =>
    refine ih.bind fun x s c => ?_
    cases hx : f x with
    | error e => exact P.stop _
    | ok g => exact hstart g (hf x g hx) s c
  | deferred hd => exact henter _ hd

/-! ## Larger budgets -/

/-- The second run ends as the first one does, whatever the states, unless the first one is
exhausted. -/
def settling (σ : Type) : Pairing σ σ where
  rel x y := ∀ u v, (x u).1 ≠ .error .exhausted → (y v).1 = (x u).1
  pure _ _ _ _ := rfl
  stop _ _ _ _ := rfl
  bind {α β x y f g} hxy hfg := by
    intro u v hend
    have hfirst := hxy u v
    rw [Run.bind_apply] at hend ⊢
    rw [Run.bind_apply]
    rcases hx : x u with ⟨a, u'⟩
    rcases hy : y v with ⟨b, v'⟩
    rw [hx] at hend
    rw [hx, hy] at hfirst
    cases a with
    | error e =>
      have he : e ≠ .exhausted := fun h => hend (congrArg Except.error h)
      obtain rfl : b = .error e := hfirst fun h => he (Except.error.inj h)
      rfl
    | ok a =>
      obtain rfl : b = .ok a := hfirst nofun
      exact hfg a u' v' hend

/-- Where the larger budget matters the smaller one is used up, and what comes of that is left
open. -/
theorem settling_budgets {σ : Type} {budget budget' : Nat} (h : budget ≤ budget') :
    (settling σ).Budgets budget budget' :=
  ⟨h, fun _ _ _ _ _ hend => absurd rfl hend⟩

/-- A deferred parser is entered on a budget that is less by one on both sides; the induction is on
the smaller one. -/
theorem settling_direct {rules : Descent.Rules} {budget budget' : Nat} (h : budget ≤ budget')
    (p : Parser Factory) :
    (settling Log).Rules (p.direct rules budget) (p.direct rules budget') := by
  induction budget generalizing budget' p with
  | zero => exact fun _ _ _ _ hend => absurd rfl hend
  | succ budget ih =>
    obtain ⟨budget', rfl⟩ := Nat.exists_eq_add_of_le' (Nat.le_of_add_left_le h)
    have hle : budget ≤ budget' := Nat.le_of_succ_le_succ h
    refine Rules.toRule (settling_budgets hle) ?_ (D := fun _ => True) ?_ (E :=
      fun _ => True) ?_ p.reaches_any
    · exact fun _ _ _ _ => rfl
    · -- what is built during the parse is the same on both sides, and has one step less
      intro factory _ s c
      apply (settling Log).bind (lift _)
      intro g
      exact (settling Log).bind (lift _) fun q => ih hle q s c
    · intro g _ s c
      exact (settling Log).bind (lift _) fun q => ih hle q s c

end Pairing

/-- **More budget changes nothing.** A direct run that is not exhausted ends in the same way with
any larger budget; what was logged before makes no difference either. -/
theorem Parser.direct_settled (rules : Rules) (p : Parser Factory) {budget budget' : Nat}
    (h : budget ≤ budget') {s : Stream} {c : Value} (log log' : Log)
    (hend : (p.direct rules budget s c log).1 ≠ .error .exhausted) :
    (p.direct rules budget' s c log').1 = (p.direct rules budget s c log).1 :=
  Pairing.settling_direct h p s c log log' hend

end Descent
