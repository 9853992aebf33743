import Descent.Run
import Descent.Text.Blank

/-!
# Leading blanks

A trimmed rule first skips the blank characters at its stream. Bytes are left as they are.
-/

namespace Descent

/-- How many blank characters stand `ahead` places on, counted up to `fuel`. -/
def Stream.blanksFrom (s : Stream) : (fuel : Nat) → (ahead : Nat) → Except Fault Nat
  | 0, ahead => .ok ahead
  | fuel + 1, ahead => do
    match ← s.peek ahead with
    | some u => if Text.isBlank u then s.blanksFrom fuel (ahead + 1) else return ahead
    | none => return ahead

/-- The stream behind its leading blanks. Bytes have none. -/
def Stream.skipBlanks (s : Stream) : Except Fault Stream := do
  if s.isText then
    let skip ← s.blanksFrom (s.source.size - s.offset).toNat 0
    return s.advance skip
  else return s

/-- Skips leading blanks, then runs a rule. -/
def Rule.trimmed {σ : Type} (p : Rule σ) : Rule σ :=
  fun s c => do
    let s ← Run.lift s.skipBlanks
    p s c

end Descent
