import Descent.Grammar
import Descent.Value.Items
import Descent.Value.Number

/-!
# Ready-made callbacks

A vocabulary of functions for the places where a grammar takes one: what to make of an output, which
units to accept, how to decode an escaped character, and which grammar to go on with.
-/

namespace Descent

/-! ## Functions on outputs and errors -/

/-- What to make of an output or an error. -/
inductive Transform where
  | identity
  | constant (v : Value)
  /-- A list of a label and the value. -/
  | labelled (label : Value)
  /-- The part at an index or under a key. -/
  | item (key : Value)
  /-- The value as a message gives it. -/
  | plain
  | size
  | join
  | integer
  | bytes
  | table
  /-- What a repetition that fell short had gathered. -/
  | gathered
  | raise (message : Text)

/-- Applies a transformation. -/
def Transform.apply : Transform → Value → Except Fault Value
  | identity, v => .ok v
  | constant v, _ => .ok v
  | labelled label, v => .ok (.list [label, v])
  | item key, v => Value.item key v
  | plain, v => do return .text (← v.toText)
  | size, v => v.size
  | join, v => v.join
  | integer, v => do return .int (← v.toInteger)
  | bytes, v => v.toBytes
  | table, v => do return .table (← v.toEntries)
  | gathered, .shortfall _ output => .ok (.list output)
  | gathered, _ => .ok .null
  | raise message, _ => .error (.raised message)

/-! ## Tests on units -/

/-- Which units to accept. -/
inductive Test where
  | equals (v : Value)
  | among (vs : List Value)
  /-- Those between two bounds and of the type of the lower one. -/
  | range (low high : Value)
  | always
  | never
  | raise (message : Text)

/-- Applies a test. -/
def Test.apply : Test → Value → Except Fault Bool
  | equals v, x => .ok (x.equal v)
  | among vs, x => .ok (vs.any fun v => v.equal x)
  | range low high, x =>
    if x.typeName = low.typeName then do
      if ← low.le x then x.le high else return false
    else .ok false
  | always, _ => .ok true
  | never, _ => .ok false
  | raise message, _ => .error (.raised message)

/-! ## Decoding escaped characters -/

/-- What an escaped character stands for; null where it stands for nothing. -/
inductive Decoding where
  | table (entries : List (Value × Value))
  | identity
  | codePoint
  | never
  | raise (message : Text)

/-- Applies a decoding. -/
def Decoding.apply : Decoding → Value → Except Fault Value
  | table entries, x => .ok ((Table.get? x (Table.ofEntries entries)).getD .null)
  | identity, x => .ok x
  | codePoint, .text (u :: _) => .ok (.int u)
  | codePoint, _ => .ok .null
  | never, _ => .ok .null
  | raise message, _ => .error (.raised message)

/-! ## Choosing the next grammar -/

/-- The grammar to go on with after an output. -/
inductive Continuation where
  | always (g : Grammar)
  /-- The grammar of the first equal value, or the last one. -/
  | cases (branches : List (Value × Grammar)) (otherwise : Grammar)
  /-- The output is the character to expect. -/
  | char
  /-- The output is the byte to expect. -/
  | byte
  /-- The output is the text to expect. -/
  | string
  /-- The output again. -/
  | succeed
  /-- A failure with the output as its error. -/
  | fail
  /-- As many characters as the output says, be it in digits. -/
  | takeChars
  /-- As many bytes as the output says. -/
  | takeBytes
  | raise (message : Text)

/-- Selects the grammar. -/
def Continuation.apply : Continuation → Value → Except Fault Grammar
  | always g, _ => .ok g
  | cases branches otherwise, x =>
    .ok (((branches.find? fun b => x.equal b.1).map (·.2)).getD otherwise)
  | char, x => .ok (.terminal (.char x))
  | byte, x => .ok (.terminal (.byte x))
  | string, x => .ok (.terminal (.string x))
  | succeed, x => .ok (.leaf (.succeed x))
  | fail, x => .ok (.leaf (.fail x))
  | takeChars, x => do return .exactly (.finite (← x.toInteger)) (.leaf (.char .any))
  | takeBytes, x => do return .exactly (← x.toCount) (.leaf (.byte .any))
  | raise message, _ => .error (.raised message)

end Descent
