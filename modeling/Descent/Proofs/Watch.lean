import Descent.Proofs.Palette

/-!
# Descent — watching the calls of a parser

A trace is the one thing that shows a call while the parse goes on. A watched grammar is a grammar
that shows where positions are asked for, and nothing else: its own traces are taken out, each
position leaf is traced, and so is each sequence of a position, a grammar and a position, which is
what a span is made of. Grammars that are built later are watched as well.

* **`Grammar.watched`** — the watched grammar; `Parser.watched` is the same for checked parsers.
* **`Grammar.check_watched`** — watching before or after the check makes no difference.
-/

namespace Descent

/-- The label under which the asking for a position is logged. -/
def positionLabel : Text := .ofString "position"

/-- The label under which what becomes a span is logged. -/
def spanLabel : Text := .ofString "span"

/-! ## Watched grammars -/

def Terminal.isPosition : Terminal → Bool
  | .leaf .position => true
  | _ => false

def Grammar.isPosition : Grammar → Bool
  | .terminal t => t.isPosition
  | _ => false

/-- Whether the grammars are a position, any grammar and a position. -/
def Grammar.areSpan : List Grammar → Bool
  | [g, _, h] => g.isPosition && h.isPosition
  | _ => false

mutual

/-- The grammar with its own traces taken out and its positions traced. -/
def Grammar.watched : Grammar → Grammar
  | .terminal t =>
    if t.isPosition then .unary (.traced positionLabel) (.terminal t) else .terminal t
  | .unary (.traced _) g => g.watched
  | .unary op g => .unary op g.watched
  | .binary op g h => .binary op g.watched h.watched
  | .between opening closing inner => .between opening.watched closing.watched inner.watched
  | .serial gs =>
    if areSpan gs then .unary (.traced spanLabel) (.serial (watchedAll gs)) else .serial
      (watchedAll gs)
  | .choice gs => .choice (watchedAll gs)
  | .bind g f => .bind g.watched fun x => watchedResult (f x)
  | .lazy g => .lazy g.watched
  | .ref name => .ref name

def Grammar.watchedAll : List Grammar → List Grammar
  | [] => []
  | g :: gs => g.watched :: watchedAll gs

def Grammar.watchedResult : Except Fault Grammar → Except Fault Grammar
  | .ok g => .ok g.watched
  | .error f => .error f

end

def Rules.watched (rules : Rules) : Rules :=
  fun name => (rules name).map Grammar.watched

/-! ## Watched parsers

The same on checked parsers, where the position is a leaf and no longer a terminal that may be
refused. -/

def Factory.watched : Factory → Factory
  | grammar g => grammar g.watched
  | named name => named name

def Leaf.isPosition : Leaf → Bool
  | position => true
  | _ => false

def Parser.isPosition {δ : Type} : Parser δ → Bool
  | .leaf l => l.isPosition
  | _ => false

def Parser.areSpan {δ : Type} : List (Parser δ) → Bool
  | [p, _, q] => p.isPosition && q.isPosition
  | _ => false

mutual

def Parser.watched : Parser Factory → Parser Factory
  | .leaf l => if l.isPosition then .unary (.traced positionLabel) (.leaf l) else .leaf l
  | .unary (.traced _) p => p.watched
  | .unary op p => .unary op p.watched
  | .binary op p q => .binary op p.watched q.watched
  | .between opening closing inner => .between opening.watched closing.watched inner.watched
  | .serial ps =>
    if areSpan ps then .unary (.traced spanLabel) (.serial (watchedAll ps)) else .serial
      (watchedAll ps)
  | .choice p ps => .choice p.watched (watchedAll ps)
  | .bind p f => .bind p.watched fun x => Grammar.watchedResult (f x)
  | .deferred factory => .deferred factory.watched

def Parser.watchedAll : List (Parser Factory) → List (Parser Factory)
  | [] => []
  | p :: ps => p.watched :: watchedAll ps

end

/-! ## Watching and checking -/

/-- The check of a terminal finds the position leaf where it was asked for, and only there. -/
theorem Terminal.isPosition_check {t : Terminal} {l : Leaf} (h : t.check = .ok l) :
    t.isPosition = l.isPosition := by
  cases t with
  | leaf l' =>
    -- only here can the leaf be a position; all others are made by the check
    cases h
    cases l <;> rfl
  | char c =>
    obtain ⟨_, _, h⟩ := ok_of_bind h
    cases h
    rfl
  | oneOf cs =>
    obtain ⟨_, _, h⟩ := ok_of_bind h
    cases h
    rfl
  | noneOf cs =>
    obtain ⟨_, _, h⟩ := ok_of_bind h
    cases h
    rfl
  | hex case =>
    obtain ⟨_, _, h⟩ := ok_of_bind h
    cases h
    rfl
  | string literal =>
    rw [Terminal.check.eq_def] at h
    cases literal <;> cases h
    rfl
  | byte b =>
    obtain ⟨_, _, h⟩ := ok_of_bind h
    cases h
    rfl
  | slice literal =>
    obtain ⟨_, _, h⟩ := ok_of_bind h
    cases h
    rfl
  | escapedWith control entries =>
    obtain ⟨_, _, h⟩ := ok_of_bind h
    obtain ⟨_, _, h⟩ := ok_of_bind h
    cases h
    rfl
  | escapedBy control decode =>
    obtain ⟨_, _, h⟩ := ok_of_bind h
    cases h
    rfl

/-- Only the position leaf is built into the position leaf. -/
theorem Terminal.eq_of_isPosition {t : Terminal} (h : t.isPosition = true) :
    t = .leaf .position := by
  unfold Terminal.isPosition at h
  split at h
  · rfl
  · cases h

theorem Leaf.eq_of_isPosition {l : Leaf} (h : l.isPosition = true) : l = .position := by
  cases l <;> first | rfl | cases h

/-- Of all parsers only the leaf asks for the position itself. -/
theorem Parser.eq_of_isPosition {p : Parser Factory} (h : p.isPosition = true) :
    p = .leaf .position := by
  cases p with
  | leaf l => rw [Leaf.eq_of_isPosition h]
  | _ => cases h

/-- Parsers that make a span are a position, a part and a position. -/
theorem Parser.eq_of_areSpan {ps : List (Parser Factory)} (h : areSpan ps = true) :
    ∃ q, ps = [.leaf .position, q, .leaf .position] := by
  match ps with
  | [p, q, r] =>
    obtain ⟨hp, hr⟩ := Bool.and_eq_true_iff.mp h
    refine ⟨q, ?_⟩
    rw [Parser.eq_of_isPosition hp, Parser.eq_of_isPosition hr]
  | [] => cases h
  | [_] => cases h
  | [_, _] => cases h
  | _ :: _ :: _ :: _ :: _ => cases h

theorem Grammar.check_unary (op : Unary) (g : Grammar) :
    (Grammar.unary op g).check = g.check >>= fun p => op.check >>= fun _ => .ok (.unary op p) :=
  rfl

/-- The check keeps the shape, so a grammar asks for the position if its parser does. -/
theorem Grammar.isPosition_check {g : Grammar} {p : Parser Factory} (h : g.check = .ok p) :
    g.isPosition = p.isPosition := by
  cases g with
  | terminal t =>
    obtain ⟨l, hl, h⟩ := ok_of_bind h
    cases h
    exact Terminal.isPosition_check hl
  | unary op g =>
    obtain ⟨_, _, h⟩ := ok_of_bind h
    obtain ⟨_, _, h⟩ := ok_of_bind h
    cases h
    rfl
  | binary op g g' =>
    obtain ⟨_, _, h⟩ := ok_of_bind h
    obtain ⟨_, _, h⟩ := ok_of_bind h
    obtain ⟨_, _, h⟩ := ok_of_bind h
    cases h
    rfl
  | between opening closing inner =>
    obtain ⟨_, _, h⟩ := ok_of_bind h
    obtain ⟨_, _, h⟩ := ok_of_bind h
    obtain ⟨_, _, h⟩ := ok_of_bind h
    cases h
    rfl
  | serial gs =>
    obtain ⟨_, _, h⟩ := ok_of_bind h
    cases h
    rfl
  | choice gs =>
    obtain ⟨ps, _, h⟩ := ok_of_bind h
    cases ps <;> cases h
    rfl
  | bind g f =>
    obtain ⟨_, _, h⟩ := ok_of_bind h
    cases h
    rfl
  | lazy g =>
    cases h
    rfl
  | ref name =>
    cases h
    rfl

theorem Grammar.checkAll_cons {g : Grammar} {gs : List Grammar} {ps : List (Parser Factory)}
    (h : checkAll (g :: gs) = .ok ps) :
    ∃ p qs, ps = p :: qs ∧ g.check = .ok p ∧ checkAll gs = .ok qs := by
  obtain ⟨p, hp, h⟩ := ok_of_bind h
  obtain ⟨qs, hqs, h⟩ := ok_of_bind h
  cases h
  exact ⟨p, qs, rfl, hp, hqs⟩

/-- A position, a grammar and a position are built into a position, a parser and a position. -/
theorem Grammar.areSpan_checkAll {gs : List Grammar} {ps : List (Parser Factory)}
    (h : checkAll gs = .ok ps) :
    areSpan gs = Parser.areSpan ps := by
  match gs with
  | [] =>
    cases h
    rfl
  | [_] =>
    obtain ⟨_, _, rfl, _, h⟩ := checkAll_cons h
    cases h
    rfl
  | [_, _] =>
    obtain ⟨_, _, rfl, _, h⟩ := checkAll_cons h
    obtain ⟨_, _, rfl, _, h⟩ := checkAll_cons h
    cases h
    rfl
  | [_, _, _] =>
    -- only three parts can be a span, and then first and last decide
    obtain ⟨_, _, rfl, hp, h⟩ := checkAll_cons h
    obtain ⟨_, _, rfl, _, h⟩ := checkAll_cons h
    obtain ⟨_, _, rfl, hq, h⟩ := checkAll_cons h
    cases h
    rw [areSpan, Parser.areSpan, isPosition_check hp, isPosition_check hq]
  | _ :: _ :: _ :: _ :: _ =>
    obtain ⟨_, _, rfl, _, h⟩ := checkAll_cons h
    obtain ⟨_, _, rfl, _, h⟩ := checkAll_cons h
    obtain ⟨_, _, rfl, _, h⟩ := checkAll_cons h
    obtain ⟨_, _, rfl, _, h⟩ := checkAll_cons h
    rfl

mutual

/-- Watching before the check or after it makes no difference. -/
theorem Grammar.check_watched : ∀ g : Grammar, g.watched.check = g.check.map Parser.watched
  | .terminal t => by
    by_cases hpos : t.isPosition = true
    · obtain rfl := Terminal.eq_of_isPosition hpos
      rfl
    · rw [Grammar.watched, if_neg hpos, Grammar.check]
      cases ht : t.check with
      | error f => rfl
      | ok l =>
        -- the check makes no position leaf of a terminal that was none
        rw [Terminal.isPosition_check ht] at hpos
        show _ = Except.ok (Parser.watched (.leaf l))
        rw [Parser.watched, if_neg hpos]
        rfl
  | .unary op g => by
    have ih := check_watched g
    cases op with
    | traced label =>
      rw [Grammar.watched, Grammar.check_unary, ih]
      cases g.check with
      | error f => rfl
      | ok p => rfl
    | many least most =>
      rw [Grammar.watched, Grammar.check_unary, Grammar.check_unary, ih]
      cases g.check with
      | error f => rfl
      | ok p => cases (Unary.many least most).check <;> rfl
      · nofun
    | _ =>
      rw [Grammar.watched, Grammar.check_unary, Grammar.check_unary, ih]
      cases g.check with
      | error f => rfl
      | ok p => rfl
      · nofun
  | .binary op g h => by
    rw [Grammar.watched, Grammar.check, Grammar.check, check_watched g, check_watched h]
    cases g.check with
    | error f => rfl
    | ok p =>
      cases h.check with
      | error f => rfl
      | ok q => cases op.check <;> rfl
  | .between opening closing inner => by
    rw [Grammar.watched, Grammar.check, Grammar.check, check_watched opening, check_watched closing,
      check_watched inner]
    cases opening.check with
    | error f => rfl
    | ok p =>
      cases closing.check with
      | error f => rfl
      | ok q =>
        cases inner.check with
        | error f => rfl
        | ok r => rfl
  | .serial gs => by
    have ih := checkAll_watchedAll gs
    rw [Grammar.watched]
    cases hgs : checkAll gs with
    | error f =>
      rw [hgs] at ih
      rw [Grammar.check, hgs]
      split
      · rw [Grammar.check_unary, Grammar.check, ih]
        rfl
      · rw [Grammar.check, ih]
        rfl
    | ok ps =>
      -- both sides ask for a span: of the grammars here, of the parsers built from them there
      rw [hgs] at ih
      rw [areSpan_checkAll hgs, Grammar.check, hgs]
      show _ = Except.ok (Parser.watched (.serial ps))
      rw [Parser.watched]
      split
      · rw [Grammar.check_unary, Grammar.check, ih]
        rfl
      · rw [Grammar.check, ih]
        rfl
  | .choice gs => by
    rw [Grammar.watched, Grammar.check, Grammar.check, checkAll_watchedAll gs]
    cases checkAll gs with
    | error f => rfl
    | ok ps =>
      cases ps with
      | nil => rfl
      | cons p ps => rfl
  | .bind g f => by
    rw [Grammar.watched, Grammar.check, Grammar.check, check_watched g]
    cases g.check with
    | error f => rfl
    | ok p => rfl
  | .lazy g => rfl
  | .ref name => rfl

/-- The same for lists of grammars, by induction together with the grammars. -/
theorem Grammar.checkAll_watchedAll : ∀ gs : List Grammar,
    checkAll (watchedAll gs) = (checkAll gs).map Parser.watchedAll
  | [] => rfl
  | g :: gs => by
    rw [Grammar.watchedAll, Grammar.checkAll, Grammar.checkAll, check_watched g,
      checkAll_watchedAll gs]
    cases g.check with
    | error f => rfl
    | ok p =>
      cases checkAll gs with
      | error f => rfl
      | ok ps => rfl

end

end Descent
