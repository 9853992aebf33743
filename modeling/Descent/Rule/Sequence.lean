import Descent.Run

/-!
# Sequencing and choice

How rules are joined one after the other and one instead of the other. A sequence hands the stream
and context of each success to the next rule and ends with the very failure of the first rule that
fails. An alternative always starts from the stream and context that the whole choice was given.
-/

namespace Descent.Rule

variable {σ : Type}

/-- Succeeds with a value and consumes nothing. -/
def succeed (v : Value) : Rule σ :=
  fun s c => pure (.ok s v c)

/-- Changes the output of a success. -/
def map (p : Rule σ) (f : Value → Except Fault Value) : Rule σ :=
  fun s c => do
    match ← p s c with
    | .ok s x c => return .ok s (← Run.lift (f x)) c
    | .err s e c => return .err s e c

/-- Changes the error of a failure. -/
def mapError (p : Rule σ) (f : Value → Except Fault Value) : Rule σ :=
  fun s c => do
    match ← p s c with
    | .ok s x c => return .ok s x c
    | .err s e c => return .err s (← Run.lift (f e)) c

/-- Goes on with the rule that the output of the first one selects. -/
def bind (p : Rule σ) (f : Value → Rule σ) : Rule σ :=
  fun s c => do
    match ← p s c with
    | .ok s x c => f x s c
    | .err s e c => return .err s e c

/-- Two rules in order, with both outputs. -/
def both (p q : Rule σ) : Rule σ :=
  fun s c => do
    match ← p s c with
    | .err s e c => return .err s e c
    | .ok s x c =>
      match ← q s c with
      | .err s e c => return .err s e c
      | .ok s y c => return .ok s (.tuple [x, y]) c

/-- Two rules in order, with the output of the first. -/
def keepLeft (p q : Rule σ) : Rule σ :=
  fun s c => do
    match ← p s c with
    | .err s e c => return .err s e c
    | .ok s x c =>
      match ← q s c with
      | .err s e c => return .err s e c
      | .ok s _ c => return .ok s x c

/-- Two rules in order, with the output of the second. -/
def keepRight (p q : Rule σ) : Rule σ :=
  fun s c => do
    match ← p s c with
    | .err s e c => return .err s e c
    | .ok s _ c => q s c

/-- An opening, an inner and a closing rule in order, with the output of the inner one. -/
def between (opening closing inner : Rule σ) : Rule σ :=
  fun s c => do
    match ← opening s c with
    | .err s e c => return .err s e c
    | .ok s _ c =>
      match ← inner s c with
      | .err s e c => return .err s e c
      | .ok s x c =>
        match ← closing s c with
        | .err s e c => return .err s e c
        | .ok s _ c => return .ok s x c

/-- The rules in order, their outputs put behind those gathered before, which are held in
reverse. -/
def serialOnto (gathered : List Value) : List (Rule σ) → Rule σ
  | [] => fun s c => pure (.ok s (.tuple gathered.reverse) c)
  | p :: ps => fun s c => do
    match ← p s c with
    | .err s e c => return .err s e c
    | .ok s x c => serialOnto (x :: gathered) ps s c

/-- The rules in order, with the tuple of their outputs. -/
def serial (ps : List (Rule σ)) : Rule σ :=
  serialOnto [] ps

/-- The second rule where the first one fails. -/
def orElse (p q : Rule σ) : Rule σ :=
  fun s c => do
    match ← p s c with
    | .ok s x c => return .ok s x c
    | .err _ _ _ => q s c

/-- The first success among the rules, or the failure of the last one. -/
def choice (p : Rule σ) : List (Rule σ) → Rule σ
  | [] => p
  | q :: qs => fun s c => do
    match ← p s c with
    | .ok s x c => return .ok s x c
    | .err _ _ _ => choice q qs s c

/-- Success in any case: a failure becomes the null output at the starting stream, in the context
that the failed attempt handed back. -/
def optional (p : Rule σ) : Rule σ :=
  fun s c => do
    match ← p s c with
    | .ok s x c => return .ok s x c
    | .err _ _ c => return .ok s .null c

end Descent.Rule
