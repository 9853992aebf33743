import Descent.Grammar

/-!
# Grammars that use the context

Grammars that read and write the entries of a table carried as the context.
-/

namespace Descent

/-! ## Hooks -/

/-- Changes the context of a success, given its output and context. -/
def Hook.onSuccess (f : Value → Value → Except Fault Value) : Hook where
  after
    | .ok s x c => do return .ok s x (← f x c)
    | .err s e c => .ok (.err s e c)

/-- Changes the context before the rule runs. -/
def Hook.onEntry (f : Value → Except Fault Value) : Hook where
  before _ c := do return .proceed (← f c)

/-- Fails at once in a context that lacks a key. -/
def Hook.needs (key : Text) : Hook where
  before s c := do
    if ← c.holds key then return .proceed c
    else return .finish (.err s (.text (.ofString "missing " ++ key)) c)

namespace Grammar

/-! ## Grammars -/

/-- A grammar with a hook around it. -/
def hooked (hook : Hook) (g : Grammar) : Grammar :=
  .unary (.hooked hook) g

/-- On success adds one to the entry of a key, which counts from zero. -/
def counting (key : Value) (g : Grammar) : Grammar :=
  g.hooked <| .onSuccess fun _ c => do
    c.put key (← ((c.get? key).getD (.int 0)).increment)

/-- On success stores the output under a key. -/
def storing (key : Value) (g : Grammar) : Grammar :=
  g.hooked <| .onSuccess fun x c => c.put key x

/-- Fails unless the context has the key. -/
def requiring (key : Text) (g : Grammar) : Grammar :=
  g.hooked (.needs key)

/-- Runs in a context with an entry put in. -/
def injecting (key value : Value) (g : Grammar) : Grammar :=
  g.hooked <| .onEntry fun c => c.put key value

/-- The value under a key, or null. -/
def lookup (key : Value) : Grammar :=
  .leaf (.custom fun s c => do return .ok s ((← c.lookup key).getD .null) c)

/-- The context as the output. -/
def currentContext : Grammar :=
  .leaf (.custom fun s c => .ok (.ok s c c))

/-- Replaces the context. -/
def replaceContext (context : Value) : Grammar :=
  .leaf (.custom fun s _ => .ok (.ok s .null context))

/-- Fails and replaces the context. -/
def failIn (context error : Value) : Grammar :=
  .leaf (.custom fun s _ => .ok (.err s error context))

end Grammar

end Descent
