import Descent.Value

/-!
# Results and runs

A parser ends in a `Result`: success or failure, each with the stream and context to go on from. A
`Run` is a computation that may also be stopped, by a fault or because its budget of steps is used
up. It works over a state that outlives a stop, so what was logged or built before a fault is kept.
-/

namespace Descent

/-- The end of a parse. -/
inductive Result where
  /-- The remaining input, the output, and the context to pass on. -/
  | ok (stream : Stream) (output : Value) (context : Value)
  /-- The input at the point of failure, the error, and the context there. -/
  | err (stream : Stream) (error : Value) (context : Value)
deriving Repr

/-- Why a run ended without a result. -/
inductive Stop where
  | fault (f : Fault)
  /-- The budget of steps was used up. -/
  | exhausted
  /-- A deferred parser refers to no cell. -/
  | unknownCell
deriving DecidableEq, Repr

/-- A computation over a state `σ` that may be stopped. -/
def Run (σ α : Type) : Type :=
  σ → Except Stop α × σ

namespace Run

variable {σ α β : Type}

/-- The run that only returns. -/
@[inline]
def ret (a : α) : Run σ α :=
  fun s => (.ok a, s)

/-- One run after the other. A stop of the first is final. -/
@[inline]
def andThen (x : Run σ α) (f : α → Run σ β) : Run σ β :=
  fun s =>
    match x s with
    | (.ok a, s') => f a s'
    | (.error e, s') => (.error e, s')

instance : Monad (Run σ) where
  pure := ret
  bind := andThen

/-- The second run starts from the state that the first one left. -/
theorem bind_apply (x : Run σ α) (f : α → Run σ β) (s : σ) :
    (x >>= f) s = match x s with
      | (.ok a, s') => f a s'
      | (.error e, s') => (.error e, s') :=
  rfl

instance : LawfulMonad (Run σ) :=
  .mk' (Run σ)
    (by
      intro α x
      funext s
      change (x >>= pure) s = x s
      rw [bind_apply]
      rcases x s with ⟨_ | a, s'⟩ <;> rfl)
    (by intro α β a f; rfl)
    (by
      intro α β γ x f g
      funext s
      simp only [bind_apply]
      rcases x s with ⟨_ | a, s'⟩ <;> rfl)

/-- The run that stops. -/
@[inline]
def stop (e : Stop) : Run σ α :=
  fun s => (.error e, s)

/-- A computation that may be at fault, as a run. -/
@[inline]
def lift (x : Except Fault α) : Run σ α :=
  match x with
  | .ok a => ret a
  | .error f => stop (.fault f)

/-- The run that reads the state. -/
@[inline]
def read (f : σ → α) : Run σ α :=
  fun s => (.ok (f s), s)

/-- The run that changes the state. -/
@[inline]
def update (f : σ → σ) : Run σ Unit :=
  fun s => (.ok (), f s)

end Run

/-- What a parser does: from a stream and a context to a result. -/
abbrev Rule (σ : Type) : Type :=
  Stream → Value → Run σ Result

namespace Result

/-- The stream of a result. -/
def stream : Result → Stream
  | ok s _ _ => s
  | err s _ _ => s

/-- The context of a result. -/
def context : Result → Value
  | ok _ _ c => c
  | err _ _ c => c

/-- Whether the result is a success. -/
def isOk : Result → Bool
  | ok _ _ _ => true
  | err _ _ _ => false

end Result

end Descent
