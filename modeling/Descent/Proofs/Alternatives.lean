import Descent.Meaning

/-!
# Descent — alternatives in any bracketing

A choice tries its parsers in order, each at the stream and in the context of the start, and takes
the first that succeeds; the last one has the last word. The same can be said with two parsers at a
time, and it makes no difference how these are nested.

* **`Rule.orElse_assoc`** — alternatives can be bracketed either way.
* **`Rule.AllFail` / `Rule.EndsInChoice`** — how alternatives end: some of them fail in turn, and
  the end is that of the next one, which does not fail or is the last.
* **`Alternatives`** — a nesting of alternatives, with the parser that it is and the parsers that it
  holds.
* **`Alternatives.parser_eq_choice`** — the statement for nestings.
-/

namespace Descent

namespace Rule

variable {σ : Type}

/-! ## Two alternatives -/

/-- The second rule has its turn where the first one fails, and any other end is final. -/
theorem orElse_apply (p q : Rule σ) (s : Stream) (c : Value) (u : σ) :
    p.orElse q s c u = match p s c u with
      | (.ok (.err _ _ _), v) => q s c v
      | y => y := by
  unfold orElse
  rw [Run.bind_apply]
  rcases p s c u with ⟨_ | ⟨_ | _⟩, v⟩ <;> rfl

/-- Behind a failure the second rule starts where the first one did; only the state goes on. -/
theorem orElse_of_failed {p : Rule σ} {s t : Stream} {c e d : Value} {u v : σ}
    (h : p s c u = (.ok (.err t e d), v)) (q : Rule σ) : p.orElse q s c u = q s c v := by
  rw [orElse_apply, h]

theorem orElse_of_not_failed {p : Rule σ} {s : Stream} {c : Value} {u : σ}
    (h : ∀ t e d, (p s c u).1 ≠ .ok (.err t e d)) (q : Rule σ) : p.orElse q s c u = p s c u := by
  rw [orElse_apply]
  split
  · next hp =>
    rw [hp] at h
    exact absurd rfl (h _ _ _)
  · rfl

/-- To choose among three rules it does not matter which two are combined first. -/
theorem orElse_assoc (p q r : Rule σ) : (p.orElse q).orElse r = p.orElse (q.orElse r) := by
  funext s c u
  simp only [orElse_apply]
  rcases p s c u with ⟨_ | ⟨_ | _⟩, v⟩ <;> rfl

/-! ## Any number of alternatives -/

theorem choice_cons (p q : Rule σ) (qs : List (Rule σ)) :
    choice p (q :: qs) = p.orElse (choice q qs) :=
  rfl

/-- A choice behind which stands another one is a choice of all. -/
theorem choice_append (p q : Rule σ) (ps qs : List (Rule σ)) :
    choice p (ps ++ q :: qs) = (choice p ps).orElse (choice q qs) := by
  induction ps generalizing p with
  | nil => rfl
  | cons r ps ih => rw [List.cons_append, choice_cons, choice_cons, ih, orElse_assoc]

/-- Rules that fail in turn, all at one stream and in one context. The state goes from one to the
next. -/
inductive AllFail (s : Stream) (c : Value) : List (Rule σ) → σ → σ → Prop where
  | nil {u : σ} : AllFail s c [] u u
  | cons {p : Rule σ} {ps : List (Rule σ)} {t : Stream} {e d : Value} {u v w : σ}
      (hfirst : p s c u = (.ok (.err t e d), v)) (hrest : AllFail s c ps v w) :
        AllFail s c (p :: ps) u w

/-- How alternatives end: those in front fail, and the end is that of the next one, run at the same
stream and in the same context. This one does not fail, and then the others are not run; or there
are no others. -/
inductive EndsInChoice (ps : List (Rule σ)) (s : Stream) (c : Value) (u : σ) :
    Except Stop Result × σ → Prop where
  | tried {before after : List (Rule σ)} {p : Rule σ} {v : σ} (hps : ps = before ++ p :: after)
      (h : AllFail s c before u v) (hp : after = [] ∨ ∀ t e d, (p s c v).1 ≠ .ok (.err t e d)) :
      EndsInChoice ps s c u (p s c v)

/-- A first alternative that fails is one more of those that do. -/
theorem EndsInChoice.cons {p : Rule σ} {ps : List (Rule σ)} {s t : Stream} {c e d : Value} {u v : σ}
    {y : Except Stop Result × σ} (hfirst : p s c u = (.ok (.err t e d), v))
    (h : EndsInChoice ps s c v y) :
    EndsInChoice (p :: ps) s c u y := by
  cases h with
  | tried hps h hp => exact .tried (congrArg (p :: ·) hps) (.cons hfirst h) hp

/-- A choice ends as the characterisation says, by induction on the rules. -/
theorem endsInChoice_choice (p : Rule σ) (ps : List (Rule σ)) (s : Stream) (c : Value) (u : σ) :
    EndsInChoice (p :: ps) s c u (choice p ps s c u) := by
  induction ps generalizing p u with
  | nil =>
    have hps : [p] = [] ++ p :: [] := rfl
    exact .tried hps .nil (.inl rfl)
  | cons q qs ih =>
    have hps : p :: q :: qs = [] ++ p :: q :: qs := rfl
    rw [choice_cons]
    by_cases hp : ∃ t e d, (p s c u).1 = .ok (.err t e d)
    · obtain ⟨t, e, d, hp⟩ := hp
      have hfirst : p s c u = (.ok (.err t e d), (p s c u).2) := Prod.ext hp rfl
      rw [orElse_of_failed hfirst]
      exact .cons hfirst (ih q _)
    · have hp : ∀ t e d, (p s c u).1 ≠ .ok (.err t e d) := fun t e d h => hp ⟨t, e, d, h⟩
      rw [orElse_of_not_failed hp]
      exact .tried hps .nil (.inr hp)

/-- Alternatives that fail hand over to those behind them. -/
theorem AllFail.choice_eq {before after : List (Rule σ)} {q : Rule σ} {s : Stream} {c : Value}
    {u v : σ} (h : AllFail s c before u v) {p : Rule σ} {ps : List (Rule σ)}
    (hps : p :: ps = before ++ q :: after) :
    choice p ps s c u = choice q after s c v := by
  induction h generalizing p ps with
  | nil =>
    cases hps
    rfl
  | @cons r before _ _ _ _ _ _ hfirst _ ih =>
    rw [List.cons_append] at hps
    obtain ⟨rfl, rfl⟩ := List.cons.inj hps
    obtain ⟨p', ps', hps'⟩ : ∃ p' ps', p' :: ps' = before ++ q :: after := by
      cases before with
      | nil => exact ⟨_, _, rfl⟩
      | cons p' before => exact ⟨_, _, rfl⟩
    rw [← hps', choice_cons, orElse_of_failed hfirst]
    exact ih hps'

/-- **How alternatives end**, and there is no other way for them to end. -/
theorem choice_eq_iff {p : Rule σ} {ps : List (Rule σ)} {s : Stream} {c : Value} {u : σ}
    {y : Except Stop Result × σ} : choice p ps s c u = y ↔ EndsInChoice (p :: ps) s c u y := by
  constructor
  · rintro rfl
    exact endsInChoice_choice p ps s c u
  · intro h
    cases h with
    | @tried before after q v hps h hq =>
      rw [h.choice_eq hps]
      cases after with
      | nil => rfl
      | cons r after => exact orElse_of_not_failed (hq.resolve_left nofun) _

end Rule

/-! ## Nestings -/

/-- A nesting of alternatives, two at a time. -/
inductive Alternatives (δ : Type) where
  | one (p : Parser δ)
  | either (left right : Alternatives δ)

namespace Alternatives

variable {σ δ : Type}

/-- The nesting as a parser. -/
def parser : Alternatives δ → Parser δ
  | one p => p
  | either left right => .binary .orElse left.parser right.parser

/-- The alternative that comes first. -/
def first : Alternatives δ → Parser δ
  | one p => p
  | either left _ => left.first

/-- The alternatives behind the first one, in order. -/
def others : Alternatives δ → List (Parser δ)
  | one _ => []
  | either left right => left.others ++ right.first :: right.others

/-- The parser of the alternatives has the rule of the choice, whatever the brackets. -/
theorem parser_toRule (host : Host σ δ) (budget : Nat) (a : Alternatives δ) :
    a.parser.toRule host budget = Rule.choice (a.first.toRule host budget)
      (a.others.map (·.toRule host budget)) := by
  induction a with
  | one p => rfl
  | either left right ihl ihr =>
    rw [others, List.map_append, List.map_cons, Rule.choice_append, first, ← ihl, ← ihr]
    rfl

/-- **Alternatives in any bracketing.** In any host, so in direct runs and in sessions, a nesting of
alternatives is the choice of the parsers in it, in their order: for every stream, context and
state, the log and the stops included. And this is how it ends: each alternative is run at the
stream and in the context of the start, as long as those before it fail; the end is that of the
first one that does not fail, and then no other is run, or else that of the last one, with its own
stream, error and context. -/
theorem parser_eq_choice (host : Host σ δ) (budget : Nat) (a : Alternatives δ) :
    a.parser.toRule host budget = (Parser.choice a.first a.others).toRule host budget ∧
    ∀ s c u y, a.parser.toRule host budget s c u = y ↔
      Rule.EndsInChoice ((a.first :: a.others).map (·.toRule host budget)) s c u y := by
  have hrule := a.parser_toRule host budget
  constructor
  · show _ = Rule.choice (a.first.toRule host budget) (Parser.toRules host budget a.others)
    rw [Parser.toRules_eq_map, hrule]
  · intro s c u y
    rw [hrule]
    exact Rule.choice_eq_iff

end Alternatives

end Descent
