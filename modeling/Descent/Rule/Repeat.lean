import Descent.Count
import Descent.Run

/-!
# Repetition

The loops: plain, up to an end, and with separators. Each gathers outputs as long as its rule
succeeds and ends where the last success left off; a failed attempt leaves no trace. A loop whose
rule can succeed without consuming need not end, so each takes a budget and stops the run when it is
used up.
-/

namespace Descent.Rule

variable {σ : Type}

/-- What a loop has gathered, last output first, and where it stands. -/
structure Sweep where
  gathered : List Value
  stream : Stream
  context : Value

namespace Sweep

/-- A loop that has gathered nothing. -/
def start (s : Stream) (c : Value) : Sweep :=
  ⟨[], s, c⟩

/-- The loop after one more success. -/
def push (w : Sweep) (s : Stream) (x : Value) (c : Value) : Sweep :=
  ⟨x :: w.gathered, s, c⟩

/-- The outputs, first one first. -/
def outputs (w : Sweep) : List Value :=
  w.gathered.reverse

/-- Success with the outputs. -/
def succeed (w : Sweep) : Result :=
  .ok w.stream (.list w.outputs) w.context

/-- Success if the outputs reach the minimum, and a failure that holds them otherwise. -/
def atLeast (w : Sweep) (least : Count) (tag : Tag) : Result :=
  if least.isReachedBy w.gathered.length then w.succeed
  else .err w.stream (.shortfall tag w.outputs) w.context

end Sweep

/-- Repeats a rule until it fails or `most` further successes are gathered. -/
def repeatFrom (p : Rule σ) : (budget : Nat) → (most : Count) → Sweep → Run σ Sweep
  | 0, _, _ => Run.stop .exhausted
  | budget + 1, most, w =>
    if most.isPositive then do
      match ← p w.stream w.context with
      | .ok s x c => repeatFrom p budget most.pred (w.push s x c)
      | .err _ _ _ => return w
    else return w

/-- Between `least` and `most` repetitions. -/
def many (budget : Nat) (least most : Count) (p : Rule σ) : Rule σ :=
  fun s c => do
    let w ← repeatFrom p budget most (Sweep.start s c)
    return w.atLeast least .many

/-- One or more repetitions. Without any, the failure is that of the first attempt. -/
def many1 (budget : Nat) (p : Rule σ) : Rule σ :=
  fun s c => do
    match ← p s c with
    | .err s e c => return .err s e c
    | .ok s' x c' =>
      let w ← repeatFrom p budget .infinite ((Sweep.start s c).push s' x c')
      return w.succeed

/-- Repeats a rule until `stop` succeeds, which is tried first each time and never consumes. -/
def untilFrom (p stop : Rule σ) : (budget : Nat) → Sweep → Run σ Result
  | 0, _ => Run.stop .exhausted
  | budget + 1, w => do
    match ← stop w.stream w.context with
    | .ok _ _ _ => return w.succeed
    | .err _ _ _ =>
      match ← p w.stream w.context with
      | .ok s x c => untilFrom p stop budget (w.push s x c)
      | .err s e c => return .err s e c

/-- Repetitions up to where `stop` succeeds. -/
def manyUntil (budget : Nat) (p stop : Rule σ) : Rule σ :=
  fun s c => untilFrom p stop budget (Sweep.start s c)

/-- What becomes of a separator that no item follows. -/
inductive Trailing where
  /-- It is left unread. -/
  | leave
  /-- It is consumed. -/
  | take
deriving DecidableEq, Repr

/-- The tag of a separated repetition that falls short. -/
def Trailing.tag : Trailing → Tag
  | leave => .sepBy
  | take => .sepEndBy

/-- The loop with separators, from the attempt at an item on. The separator is tried after every
item, also after the last one that `most` admits. -/
def separatedFrom (separator p : Rule σ) (trailing : Trailing) :
    (budget : Nat) → (most : Count) → Sweep → (attempt : Result) → Run σ Sweep
  | _, _, w, .err _ _ _ => pure w
  | 0, _, _, .ok _ _ _ => Run.stop .exhausted
  | budget + 1, most, w, .ok s x c =>
    if most.isPositive then do
      let w := w.push s x c
      match ← separator s c with
      | .err _ _ _ => return w
      | .ok s' _ c' =>
        let w := match trailing with
          | .leave => w
          | .take => { w with stream := s', context := c' }
        if most.pred.isPositive then
          let attempt ← p s' c'
          separatedFrom separator p trailing budget most.pred w attempt
        else return w
    else return w

/-- Items with separators between them: between `least` and `most` of them. -/
def separated (trailing : Trailing) (budget : Nat) (least most : Count) (separator p : Rule σ) :
    Rule σ :=
  fun s c => do
    let first ← p s c
    let w ← separatedFrom separator p trailing budget most (Sweep.start s c) first
    return w.atLeast least trailing.tag

/-- One or more items with separators between them. Without any, the failure is that of the first
attempt. -/
def separated1 (trailing : Trailing) (budget : Nat) (separator p : Rule σ) : Rule σ :=
  fun s c => do
    match ← p s c with
    | .err s e c => return .err s e c
    | .ok s' x c' =>
      let w ← separatedFrom separator p trailing budget .infinite (Sweep.start s c) (.ok s' x c')
      return w.succeed

end Descent.Rule
