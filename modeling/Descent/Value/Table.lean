import Descent.Value.Equal

/-!
# Tables

Look-up, insertion and construction of tables. A key that is put again keeps its place, and its old
spelling, and takes the new value.
-/

namespace Descent.Table

/-- The entries of a table, in order. -/
abbrev Entries := List (Value × Value)

/-- The value under a key. -/
def get? (key : Value) : Entries → Option Value
  | [] => none
  | (k, v) :: rest => if k.same key then some v else get? key rest

/-- The entries with `key` set to `value`. -/
def insert (key value : Value) : Entries → Entries
  | [] => [(key, value)]
  | (k, v) :: rest => if k.same key then (k, value) :: rest else (k, v) :: insert key value rest

/-- The table of a list of entries, a later one overriding an earlier one of equal key. -/
def ofEntries (entries : Entries) : Entries :=
  entries.foldl (fun table entry => insert entry.1 entry.2 table) []

end Descent.Table

namespace Descent.Value

mutual

/-- The type that keeps a value from being a key, if any: keys must not change, nor hold anything
that may. -/
def changeable? : Value → Option String
  | .buffer _ => some "bytearray"
  | .list _ => some "list"
  | .table _ => some "dict"
  | .shortfall _ _ => some "list"
  | .tuple items => changeableItem? items
  | .span value _ _ => changeable? value
  | _ => none

/-- The first obstacle among the items. -/
def changeableItem? : List Value → Option String
  | [] => none
  | v :: vs => (changeable? v).or (changeableItem? vs)

end

/-- The value as a key, or the fault of a value that may change. -/
def asKey (v : Value) : Except Fault Value :=
  match v.changeable? with
  | some type => .error (.changeableKey type)
  | none => .ok v

/-- The items of a value that has some: those of a list or tuple, the characters of a text, the
bytes of bytes, the keys of a table. -/
def items? : Value → Option (List Value)
  | .list items | .tuple items => some items
  | .text t => some (t.map (Value.ofUnit .text))
  | .bytes b | .buffer b => some (b.map (Value.ofUnit .bytes))
  | .table entries => some (entries.map (·.1))
  | _ => none

/-- The entry that the item at `place` stands for: anything with exactly two items, the first of
them a key. -/
def asEntry (place : Nat) (item : Value) : Except Fault (Value × Value) :=
  match item.items? with
  | none => .error (.entryWithoutItems place)
  | some [k, v] => do return (← k.asKey, v)
  | some items => .error (.entryLength place items.length)

/-- The items from `place` on, put as entries onto those made before. -/
def collectEntries :
    (place : Nat) → List Value → (made : Table.Entries) → Except Fault Table.Entries
  | _, [], made => .ok made
  | place, item :: rest, made => do
    let (k, v) ← asEntry place item
    collectEntries (place + 1) rest (Table.insert k v made)

/-- The entries that a table has, or that the items of any other value stand for. -/
def toEntries : Value → Except Fault Table.Entries
  | .table entries => .ok entries
  | v =>
    match v.items? with
    | none => .error (.notIterable v.typeName)
    | some items => collectEntries 0 items []

/-- The value under a key of a table; a value that is no table holds nothing. -/
def get? (v key : Value) : Option Value :=
  match v with
  | .table entries => Table.get? key entries
  | _ => none

/-- The value under a key of what must be a table. -/
def lookup (v key : Value) : Except Fault (Option Value) :=
  match v with
  | .table entries => do return Table.get? (← key.asKey) entries
  | v => .error (.noLookup v.typeName)

/-- Whether a text is a key of a table, an item of a list or tuple, or a part of another text. -/
def holds (key : Text) (v : Value) : Except Fault Bool :=
  match v with
  | .table entries => .ok (Table.get? (.text key) entries).isSome
  | .list items | .tuple items => .ok (items.any (same (.text key)))
  | .text t => .ok (Text.occursIn key t)
  | .bytes _ | .buffer _ => .error .textAmongBytes
  | v => .error (.notSearchable v.typeName)

/-- A table with `key` set to `value`. -/
def put (v key value : Value) : Except Fault Value :=
  match v with
  | .table entries => do return .table (Table.insert (← key.asKey) value entries)
  | v => .error (.notTable v.typeName)

/-- A value plus one. -/
def increment (v : Value) : Except Fault Value :=
  match v, v.integer? with
  | _, some i => .ok (.int (i + 1))
  | .float d, none | .nan d _, none => .ok (.float d.increment)
  | v, none => .error (.notIncrementable v.typeName)

end Descent.Value
