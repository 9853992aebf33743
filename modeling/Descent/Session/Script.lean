import Descent.Session

/-!
# Scripts

A script is a list of steps in one session. A step calls a parser, and may take up the stream or the
context with which an earlier step ended, or compares two earlier results, of which each matches
itself. Each input that is given anew is a source of its own.
-/

namespace Descent.Session

/-- Where the input of a step comes from. -/
inductive InputFrom where
  | given (input : Input)
  /-- The stream at which an earlier step ended. -/
  | step (k : Nat)

/-- Where the context of a step comes from. -/
inductive ContextFrom where
  | omitted
  | given (context : Value)
  /-- The context with which an earlier step ended. -/
  | step (k : Nat)

/-- A step of a script. -/
inductive Step where
  | run (name : Text) (input : InputFrom) (context : ContextFrom)
  /-- Compares the results of two earlier steps. -/
  | equal (i j : Nat)

/-- What a step answers. -/
inductive Answer where
  /-- How the call ended, and the number of builds so far. -/
  | ran (outcome : Outcome) (builds : Nat)
  | equal (same : Bool)
  /-- The step refers to a parser or a result that there is not. -/
  | unknown

/-- The result of a step that ended in one. -/
def Answer.result? : Answer → Option Result
  | ran ⟨.ok result, _⟩ _ => some result
  | _ => none

/-- The result of the step with the given number. -/
def resultOf? (answers : Array Answer) (k : Nat) : Option Result :=
  answers[k]?.bind Answer.result?

/-- The call that a step asks for. Inputs are numbered by their step. -/
def callOf? (answers : Array Answer) (input : InputFrom) (context : ContextFrom) : Option Call := do
  let input ← match input with
    | .given input => some input
    | .step k => (resultOf? answers k).map fun result => .stream result.stream
  let context ← match context with
    | .omitted => some none
    | .given context => some (some context)
    | .step k => (resultOf? answers k).map fun result => some result.context
  return { ident := answers.size, input, context }

/-- Performs one step. -/
def perform (budget : Nat) (session : Session) (answers : Array Answer) : Step → Answer × Session
  | .run name input context =>
    match session.find? name, callOf? answers input context with
    | some p, some call =>
      let (outcome, session) := session.call budget p call
      (.ran outcome session.memory.builds, session)
    | _, _ => (.unknown, session)
  | .equal i j =>
    match resultOf? answers i, resultOf? answers j with
    | some a, some b => (.equal (i = j || a.equal b), session)
    | _, _ => (.unknown, session)

/-- Performs the steps in order and appends their answers. -/
def performAll (budget : Nat) (session : Session) (answers : Array Answer) :
    List Step → Array Answer
  | [] => answers
  | step :: rest =>
    let (answer, session) := session.perform budget answers step
    session.performAll budget (answers.push answer) rest

end Descent.Session
