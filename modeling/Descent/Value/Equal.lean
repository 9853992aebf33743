import Descent.Value

/-!
# Equality of values

Equality is by meaning, not by form: `true`, `1` and `1.0` are one number, bytes equal a buffer with
the same bytes, tables are equal whatever the order of their entries, and a tracker's streams count
by what they have left to read. A list never equals a tuple, nor text bytes. No NaN is equal to
anything, but as a part of something else a NaN matches itself.
-/

namespace Descent.Value

/-- The integer that a truth value or integer stands for. -/
def integer? : Value → Option Int
  | .bool b => some (if b then 1 else 0)
  | .int i => some i
  | _ => none

/-- Equality of numbers; false where a side is no number. -/
def equalNumber : Value → Value → Bool
  | .float a, .float b => a.equal b
  | .float a, b => b.integer?.any a.equalInt
  | a, .float b => a.integer?.any b.equalInt
  | a, b => a.integer?.isSome && a.integer? = b.integer?

/-- Whether both are the NaN of one number. -/
def sameNaN : Value → Value → Bool
  | .nan _ i, .nan _ j => i = j
  | _, _ => false

mutual

/-- Equality by meaning. -/
def equal : Value → Value → Bool
  | .null, .null => true
  | .text a, .text b => a = b
  | .bytes a, .bytes b | .bytes a, .buffer b | .buffer a, .bytes b | .buffer a, .buffer b => a = b
  | .list a, .list b => equalAll a b
  | .tuple a, .tuple b => equalAll a b
  | .table a, .table b => a.length = b.length && entriesWithin a b
  | .tag a, .tag b => a = b
  | .shortfall s a, .shortfall t b => s = t && equalAll a b
  | .position a, .position b => a = b
  | .span a s e, .span b t f => (sameNaN a b || equal a b) && s = t && e = f
  | .trackerKey, .trackerKey => true
  | .tracker a, .tracker b =>
    a.position = b.position && a.last.equal b.last && a.origin.equal b.origin
  | a, b => equalNumber a b

/-- Whether the items of two lists match, one by one. -/
def equalAll : List Value → List Value → Bool
  | [], [] => true
  | a :: as, b :: bs => (sameNaN a b || equal a b) && equalAll as bs
  | _, _ => false

/-- Whether each entry on the left has a matching one on the right. -/
def entriesWithin : List (Value × Value) → List (Value × Value) → Bool
  | [], _ => true
  | (k, v) :: as, bs =>
    bs.any (fun b => (sameNaN k b.1 || equal k b.1) && (sameNaN v b.2 || equal v b.2)) &&
      entriesWithin as bs

end

/-- Whether two values match as parts: they are equal, or the same NaN. -/
def same (v w : Value) : Bool :=
  sameNaN v w || equal v w

end Descent.Value
