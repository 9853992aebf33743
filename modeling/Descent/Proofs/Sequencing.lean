import Descent.Meaning

/-!
# Descent — sequencing can be regrouped

There are five ways to put parsers one behind the other, each with a body of its own. They are one:
run the parts in order, each where the one before it ended, and make something of the outputs. Said
with `bind` and `succeed` alone this is `Rule.inTurn`, and the laws of `bind` do the rest.

* **`Rule.bind_bind` / `Rule.succeed_bind` / `Rule.bind_succeed`** — the laws of `bind`.
* **`Rule.inTurn` / `Rule.inOrder`** — rules in order and what comes behind them, by `bind` alone.
  Lists of rules can be cut (`Rule.inTurn_append`), and every combinator has this form
  (`Rule.serial_eq_inOrder`, `Rule.between_eq_inOrder`).
* **`Rule.EndsInOrder`** — how rules in order end: all of them succeed, or one does not and its end
  is that of the whole.
* **`Parser.sequencing_regroups`** — the statement for parsers, whatever the host.
-/

namespace Descent

namespace Value

/-- The items of two tuples in one tuple. -/
def joined : Value → Value
  | .tuple [.tuple xs, .tuple ys] => .tuple (xs ++ ys)
  | v => v

/-- The item of a tuple at a place, and null where there is none. -/
def component (i : Nat) : Value → Value
  | .tuple xs => xs.getD i .null
  | _ => .null

end Value

namespace Rule

variable {σ : Type}

/-! ## The laws of bind -/

/-- A rule followed by anything that hands failures on is a `bind`. -/
theorem eq_bind {p : Rule σ} {f : Value → Rule σ} {next : Result → Run σ Result}
    (herr : ∀ t e d, next (.err t e d) = pure (.err t e d))
    (hok : ∀ t x d, next (.ok t x d) = f x t d) (s : Stream) (c : Value) :
    (p s c >>= next) = p.bind f s c := by
  unfold bind
  congr
  funext attempt
  cases attempt with
  | ok t x d => exact hok t x d
  | err t e d => exact herr t e d

/-- To sequence three rules it does not matter which two are sequenced first. -/
theorem bind_bind (p : Rule σ) (f g : Value → Rule σ) :
    (p.bind f).bind g = p.bind fun x => (f x).bind g := by
  funext s c
  rw [bind, bind, bind_assoc]
  apply eq_bind
  · exact fun _ _ _ => rfl
  · exact fun _ _ _ => rfl

/-- A rule that succeeds with a value hands it on and does nothing else. -/
theorem succeed_bind (v : Value) (f : Value → Rule σ) : (succeed v).bind f = f v :=
  rfl

/-- To hand the output on to a rule that gives it back changes nothing. -/
theorem bind_succeed (p : Rule σ) : p.bind succeed = p := by
  funext s c
  calc p.bind succeed s c = (p s c >>= pure) :=
    (eq_bind (fun _ _ _ => rfl) (fun _ _ _ => rfl) s c).symm
    _ = p s c := bind_pure (p s c)

/-- To change an output is to go on with the changed one. -/
theorem map_eq_bind (p : Rule σ) (g : Value → Value) :
    p.map (fun v => .ok (g v)) = p.bind fun x => succeed (g x) :=
  rfl

/-! ## Rules in order -/

/-- The rules in order, and behind them what `next` makes of their outputs. -/
def inTurn (next : List Value → Rule σ) : List (Rule σ) → Rule σ
  | [] => next []
  | p :: ps => p.bind fun x => inTurn (fun xs => next (x :: xs)) ps

/-- Rules in turn may be split anywhere. -/
theorem inTurn_append (next : List Value → Rule σ) (ps qs : List (Rule σ)) :
    inTurn next (ps ++ qs) = inTurn (fun xs => inTurn (fun ys => next (xs ++ ys)) qs) ps := by
  induction ps generalizing next with
  | nil => rfl
  | cons p ps ih =>
    rw [List.cons_append, inTurn, inTurn]
    congr
    funext x
    exact ih fun xs => next (x :: xs)

/-- What comes behind the rules can be followed by more. -/
theorem inTurn_bind (next : List Value → Rule σ) (f : Value → Rule σ) (ps : List (Rule σ)) :
    (inTurn next ps).bind f = inTurn (fun xs => (next xs).bind f) ps := by
  induction ps generalizing next with
  | nil => rfl
  | cons p ps ih =>
    rw [inTurn, inTurn, bind_bind]
    congr
    funext x
    exact ih fun xs => next (x :: xs)

/-- The rules in order, with what `g` makes of their outputs. -/
def inOrder (g : List Value → Value) (ps : List (Rule σ)) : Rule σ :=
  inTurn (fun xs => succeed (g xs)) ps

/-- The first rule of a sequence is bound to the rest. -/
theorem inOrder_cons (g : List Value → Value) (p : Rule σ) (ps : List (Rule σ)) :
    inOrder g (p :: ps) = p.bind fun x => inOrder (fun xs => g (x :: xs)) ps :=
  rfl

/-- The gathering loop is the sequence with its outputs put behind those gathered before. -/
theorem serialOnto_eq_inOrder (gathered : List Value) (ps : List (Rule σ)) :
    serialOnto gathered ps = inOrder (fun xs => .tuple (gathered.reverse ++ xs)) ps := by
  induction ps generalizing gathered with
  | nil =>
    show succeed (.tuple gathered.reverse) = succeed (.tuple (gathered.reverse ++ []))
    rw [List.append_nil]
  | cons p ps ih =>
    funext s c
    apply eq_bind
    · exact fun _ _ _ => rfl
    · intro t x d
      show serialOnto (x :: gathered) ps t d = _
      rw [ih, List.reverse_cons]
      simp only [List.append_assoc, List.singleton_append]
      rfl

theorem serial_eq_inOrder (ps : List (Rule σ)) : serial ps = inOrder .tuple ps :=
  serialOnto_eq_inOrder [] ps

/-- A function over the output may be applied when the outputs are put together. -/
theorem map_inOrder (g : List Value → Value) (h : Value → Value) (ps : List (Rule σ)) :
    (inOrder g ps).map (fun v => .ok (h v)) = inOrder (fun xs => h (g xs)) ps := by
  rw [map_eq_bind, inOrder, inTurn_bind]
  rfl

theorem both_eq_inOrder (p q : Rule σ) : p.both q = inOrder .tuple [p, q] := by
  funext s c
  apply eq_bind
  · exact fun _ _ _ => rfl
  · intro t x d
    apply eq_bind
    · exact fun _ _ _ => rfl
    · exact fun _ _ _ => rfl

theorem keepLeft_eq_inOrder (p q : Rule σ) : p.keepLeft q = inOrder (·.getD 0 .null) [p, q] := by
  funext s c
  apply eq_bind
  · exact fun _ _ _ => rfl
  · intro t x d
    apply eq_bind
    · exact fun _ _ _ => rfl
    · exact fun _ _ _ => rfl

theorem keepRight_eq_inOrder (p q : Rule σ) : p.keepRight q = inOrder (·.getD 1 .null) [p, q] := by
  funext s c
  apply eq_bind
  · exact fun _ _ _ => rfl
  · intro t x d
    show q t d = q.bind succeed t d
    rw [bind_succeed]

/-- The inner rule is run before the closing one, which stands in front of it among the
arguments. -/
theorem between_eq_inOrder (opening closing inner : Rule σ) :
    between opening closing inner = inOrder (·.getD 1 .null) [opening, inner, closing] := by
  funext s c
  apply eq_bind
  · exact fun _ _ _ => rfl
  · intro t x d
    show inner.keepLeft closing t d = _
    rw [keepLeft_eq_inOrder]
    rfl

/-! ## How rules in order end -/

/-- Rules that succeed one after the other, each started where the one before it ended, with their
outputs. -/
inductive Passes : List (Rule σ) → Stream → Value → σ → List Value → Stream → Value → σ → Prop where
  | nil {s : Stream} {c : Value} {u : σ} : Passes [] s c u [] s c u
  | cons {p : Rule σ} {ps : List (Rule σ)} {s s' t : Stream} {c x c' d : Value}
      {xs : List Value} {u u' v : σ}
      (hfirst : p s c u = (.ok (.ok s' x c'), u')) (hrest : Passes ps s' c' u' xs t d v) :
      Passes (p :: ps) s c u (x :: xs) t d v

/-- How rules in order end. Either all of them succeed, and `g` is applied to their outputs; or
there is a first one that does not, and its end is the end of the whole, with the stream, the error
and the context that it reports. The rules behind it are not run. -/
inductive EndsInOrder (g : List Value → Value) (ps : List (Rule σ)) (s : Stream) (c : Value)
    (u : σ) :
    Except Stop Result × σ → Prop where
  | passed {t : Stream} {d : Value} {xs : List Value} {v : σ} (h : Passes ps s c u xs t d v) :
      EndsInOrder g ps s c u (.ok (.ok t (g xs) d), v)
  | halted {before after : List (Rule σ)} {p : Rule σ} {t : Stream} {d : Value}
      {xs : List Value} {v : σ}
      (hps : ps = before ++ p :: after) (h : Passes before s c u xs t d v)
      (hp : ∀ t' y d', (p t d v).1 ≠ .ok (.ok t' y d')) : EndsInOrder g ps s c u (p t d v)

/-- The first rule decides: the others go on behind a success, and any other end is final. -/
theorem bind_apply (p : Rule σ) (f : Value → Rule σ) (s : Stream) (c : Value) (u : σ) :
    p.bind f s c u = match p s c u with
      | (.ok (.ok t x d), v) => f x t d v
      | y => y := by
  unfold bind
  rw [Run.bind_apply]
  rcases p s c u with ⟨_ | ⟨_ | _⟩, v⟩ <;> rfl

/-- Where the first rule does not succeed, its end is the end of the whole. -/
theorem bind_of_not_ok {p : Rule σ} {s : Stream} {c : Value} {u : σ}
    (h : ∀ t x d, (p s c u).1 ≠ .ok (.ok t x d)) (f : Value → Rule σ) :
    p.bind f s c u = p s c u := by
  rw [bind_apply]
  split
  · next hp =>
    rw [hp] at h
    exact absurd rfl (h _ _ _)
  · rfl

/-- Rules that succeed hand over to those behind them. -/
theorem Passes.inTurn_append {ps : List (Rule σ)} {s t : Stream} {c d : Value} {xs : List Value}
    {u v : σ} (h : Passes ps s c u xs t d v) (next : List Value → Rule σ) (qs : List (Rule σ)) :
    inTurn next (ps ++ qs) s c u = inTurn (fun ys => next (xs ++ ys)) qs t d v := by
  induction h generalizing next with
  | nil => rfl
  | cons hfirst _ ih =>
    rw [List.cons_append, inTurn, bind_apply, hfirst]
    exact ih fun xs => next (_ :: xs)

/-- A first rule that succeeds is one more of those that do. -/
theorem EndsInOrder.cons {g : List Value → Value} {p : Rule σ} {ps : List (Rule σ)} {s s' : Stream}
    {c x c' : Value} {u u' : σ} {y : Except Stop Result × σ}
    (hfirst : p s c u = (.ok (.ok s' x c'), u'))
    (h : EndsInOrder (fun xs => g (x :: xs)) ps s' c' u' y) : EndsInOrder g (p :: ps) s c u y := by
  cases h with
  | passed h => exact .passed (.cons hfirst h)
  | halted hps h hp => exact .halted (congrArg (p :: ·) hps) (.cons hfirst h) hp

/-- A sequence ends in order, by induction on its rules. -/
theorem endsInOrder_inOrder (g : List Value → Value) (ps : List (Rule σ)) (s : Stream) (c : Value)
    (u : σ) :
    EndsInOrder g ps s c u (inOrder g ps s c u) := by
  induction ps generalizing g s c u with
  | nil => exact .passed .nil
  | cons p ps ih =>
    rw [inOrder_cons]
    by_cases hp : ∃ t x d, (p s c u).1 = .ok (.ok t x d)
    · obtain ⟨t, x, d, hp⟩ := hp
      have hfirst : p s c u = (.ok (.ok t x d), (p s c u).2) := Prod.ext hp rfl
      rw [bind_apply, hfirst]
      exact .cons hfirst (ih _ t d _)
    · have hp : ∀ t x d, (p s c u).1 ≠ .ok (.ok t x d) := fun t x d h => hp ⟨t, x, d, h⟩
      have hps : p :: ps = [] ++ p :: ps := rfl
      rw [bind_of_not_ok hp]
      exact .halted hps .nil hp

/-- **How rules in order end**, and there is no other way for them to end. -/
theorem inOrder_eq_iff {g : List Value → Value} {ps : List (Rule σ)} {s : Stream} {c : Value}
    {u : σ} {y : Except Stop Result × σ} : inOrder g ps s c u = y ↔ EndsInOrder g ps s c u y := by
  constructor
  · rintro rfl
    exact endsInOrder_inOrder g ps s c u
  · intro h
    cases h with
    | @passed t d xs v h =>
      have hrun := h.inTurn_append (fun xs => succeed (g xs)) []
      rw [List.append_nil] at hrun
      rw [inOrder, hrun]
      show (Except.ok (Result.ok t (g (xs ++ [])) d), v) = _
      rw [List.append_nil]
    | halted hps h hp => rw [hps, inOrder, h.inTurn_append, inTurn, bind_of_not_ok hp]

end Rule

/-! ## Parsers -/

/-- **Sequencing can be regrouped.** In any host, so in direct runs and in sessions, and for every
stream, context and state, the log and the stops included: parsers in two lists are in order as one
list is, with the two tuples put together; two parsers with both outputs are a list of two; and a
parser between others, or with one before or behind it, is the list in the order of reading, of
whose outputs one is kept. All of these are said with `bind` and `succeed` alone, which are what
selecting a grammar by an output and succeeding with a value mean; and `bind` is associative with
`succeed` on either side of it. And this is how they end: if all parts succeed, with what is made of
their outputs; otherwise with the very end of the first part that does not succeed, so with its own
stream, error and context if it fails. -/
theorem Parser.sequencing_regroups {σ δ : Type} (host : Host σ δ) (budget : Nat) :
    let rule (p : Parser δ) : Rule σ := p.toRule host budget
    let picked (i : Nat) (ps : List (Parser δ)) : Parser δ :=
      .unary (.map fun v => .ok (v.component i)) (.serial ps)
    (∀ ps qs, rule (.serial (ps ++ qs)) =
      rule (.unary (.map fun v => .ok v.joined) (.binary .both (.serial ps) (.serial qs)))) ∧
    (∀ p q, rule (.binary .both p q) = rule (.serial [p, q])) ∧
    (∀ a b p, rule (.between a b p) = rule (picked 1 [a, p, b])) ∧
    (∀ a p, rule (.binary .keepRight a p) = rule (picked 1 [a, p])) ∧
    (∀ p a, rule (.binary .keepLeft p a) = rule (picked 0 [p, a])) ∧
    (∀ ps, rule (.serial ps) = Rule.inOrder .tuple (ps.map rule)) ∧
    (∀ i ps, rule (picked i ps) = Rule.inOrder (·.getD i .null) (ps.map rule)) ∧
    (∀ p f, rule (.bind p f) = (rule p).bind fun x s c => Run.lift (f x) >>=
      fun g => host.start g s c) ∧
    (∀ v, rule (.leaf (.succeed v)) = Rule.succeed v) ∧
    (∀ (p : Rule σ) (f g : Value → Rule σ), (p.bind f).bind g = p.bind fun x => (f x).bind g) ∧
    (∀ (v : Value) (f : Value → Rule σ), (Rule.succeed v).bind f = f v) ∧
    (∀ p : Rule σ, p.bind Rule.succeed = p) ∧
    ∀ g (ps : List (Parser δ)) s c u y,
      Rule.inOrder g (ps.map rule) s c u = y ↔ Rule.EndsInOrder g (ps.map rule) s c u y := by
  intro rule picked
  -- every way of sequencing is one rule that takes parts in order
  have hserial (ps : List (Parser δ)) : rule (.serial ps) = Rule.inOrder .tuple (ps.map rule) := by
    show Rule.serial (Parser.toRules host budget ps) = _
    rw [Parser.toRules_eq_map, Rule.serial_eq_inOrder]
  have hpicked (i : Nat) (ps : List (Parser δ)) :
      rule (picked i ps) = Rule.inOrder (·.getD i .null) (ps.map rule) := by
    show (rule (.serial ps)).map _ = _
    rw [hserial, Rule.map_inOrder]
    rfl
  refine ⟨fun ps qs => ?_, fun p q => ?_, fun a b p => ?_, fun a p => ?_, fun p a => ?_,
    hserial, hpicked,
    fun p f => rfl, fun v => rfl, Rule.bind_bind, Rule.succeed_bind, Rule.bind_succeed,
    fun g ps s c u y => Rule.inOrder_eq_iff⟩
  · show _ = ((rule (.serial ps)).both (rule (.serial qs))).map _
    rw [hserial, hserial, hserial, Rule.both_eq_inOrder, Rule.map_inOrder,
      List.map_append, Rule.inOrder, Rule.inTurn_append]
    simp only [Rule.inOrder, Rule.inTurn, Rule.inTurn_bind, Rule.succeed_bind, Value.joined]
  · rw [hserial]
    exact Rule.both_eq_inOrder _ _
  · rw [hpicked]
    exact Rule.between_eq_inOrder _ _ _
  · rw [hpicked]
    exact Rule.keepRight_eq_inOrder _ _
  · rw [hpicked]
    exact Rule.keepLeft_eq_inOrder _ _

end Descent
