import Descent.Value.Shown
import Descent.Value.Table

/-!
# Parts of values

Indexing, counting and joining the items of values, and making bytes of them. What a value cannot do
is a fault that names its type.
-/

namespace Descent.Value

/-- The item with index `i`, counted from the end where `i` is negative. -/
def itemAt (kind : Fault.Indexed) (items : List Value) (i : Int) : Except Fault Value :=
  let place := if i < 0 then i + items.length else i
  if !fitsWord i then .error .indexTooLarge
  else if place < 0 then .error (.indexOutside kind)
  else match items[place.toNat]? with
    | some v => .ok v
    | none => .error (.indexOutside kind)

/-- The item of a sequence at an index, which must be an integer. -/
def itemOf (kind : Fault.Indexed) (items : List Value) (index : Value) : Except Fault Value :=
  match index.integer? with
  | some i => itemAt kind items i
  | none => .error (.indexNotInteger kind index.typeName)

/-- The part of a value at an index or under a key. -/
def item (key v : Value) : Except Fault Value :=
  match v with
  | .list items => itemOf .list items key
  | .tuple items => itemOf .tuple items key
  | .text t => itemOf .text (t.map (ofUnit .text)) key
  | .bytes b => itemOf .bytes (b.map (ofUnit .bytes)) key
  | .buffer b => itemOf .buffer (b.map (ofUnit .bytes)) key
  | .table entries => do
    match Table.get? (← key.asKey) entries with
    | some v => return v
    | none => throw (.missingKey key.shown)
  | v => .error (.notIndexable v.typeName)

/-- The number of items of a value. -/
def size (v : Value) : Except Fault Value :=
  match v.items? with
  | some items => .ok (.int items.length)
  | none => .error (.noLength v.typeName)

/-- The texts from `place` on, one after the other. -/
def joinFrom : (place : Nat) → List Value → Except Fault Text
  | _, [] => .ok []
  | place, .text t :: rest => do return t ++ (← joinFrom (place + 1) rest)
  | place, v :: _ => .error (.itemNotText place v.typeName)

/-- The texts among the items of a value, one after the other. -/
def join (v : Value) : Except Fault Value :=
  match v.items? with
  | some items => do return .text (← joinFrom 0 items)
  | none => .error .notJoinable

/-- An item as a byte. -/
def toByte (v : Value) : Except Fault Nat :=
  match v.integer? with
  | some i => if 0 ≤ i ∧ i ≤ 255 then .ok i.toNat else .error .itemNotByte
  | none => .error (.itemNotInteger v.typeName)

/-- The largest number of bytes that bytes can hold: a word less their own header of 33 bytes. -/
def maxBytes : Int := maxWord - 33

/-- The number of bytes from which on there is no memory for them. -/
def memorySize : Int := 0x100000000

/-- So many bytes zero. -/
def zeros (i : Int) : Except Fault Value :=
  if !fitsWord i then .error .lengthTooLarge
  else if i < 0 then .error .negativeCount
  else if maxBytes < i then .error .bytesTooLong
  else if memorySize ≤ i then .error .noMemory
  else .ok (.bytes (List.replicate i.toNat 0))

/-- Bytes from the items of a value; an integer gives so many zeros. -/
def toBytes (v : Value) : Except Fault Value :=
  match v with
  | .text _ => .error .noEncoding
  | _ =>
    match v.items?, v.integer? with
    | some items, _ => do return .bytes (← items.mapM toByte)
    | none, some i => zeros i
    | none, none => .error (.notConvertible v.typeName)

end Descent.Value
