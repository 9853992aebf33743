import Descent.Number.Shortest
import Descent.Text.Quoted
import Descent.Value

/-!
# Printing JSON

Values are printed one item to a line, each level four spaces further in, and in ASCII: other
characters are written as escapes, those above U+FFFF as two. An empty array or object stays on its
line.
-/

namespace Descent.Json

/-- How numbers without digits are written. -/
def specials : Shortest.Specials :=
  ⟨.ofString "NaN", .ofString "Infinity"⟩

/-- The escape of one UTF-16 unit. -/
def unitEscape (u : Nat) : Text :=
  .ofString "\\u" ++ Text.hex 4 u

/-- One code point of a printed string. -/
def printCodePoint (u : Nat) : Text :=
  if u = 34 then .ofString "\\\""
  else if u = 92 then .ofString "\\\\"
  else if u = 8 then .ofString "\\b"
  else if u = 12 then .ofString "\\f"
  else if u = 10 then .ofString "\\n"
  else if u = 13 then .ofString "\\r"
  else if u = 9 then .ofString "\\t"
  else if 0x20 ≤ u && u < 0x7F then [u]
  else if u < 0x10000 then unitEscape u
  else
    let v := u - 0x10000
    unitEscape (0xD800 + v / 0x400) ++ unitEscape (0xDC00 + v % 0x400)

/-- A printed string. -/
def printString (t : Text) : Text :=
  [34] ++ t.flatMap printCodePoint ++ [34]

/-- A new line, as far in as its level asks. -/
def newLine (level : Nat) : Text :=
  Text.lineFeed :: List.replicate (4 * level) 32

/-- Printed items between brackets. -/
def enclose (opening closing : Char) (level : Nat) : List Text → Text
  | [] => [opening.toNat, closing.toNat]
  | item :: items =>
    [opening.toNat] ++ newLine (level + 1)
      ++ Text.intercalate ([44] ++ newLine (level + 1)) (item :: items)
      ++ newLine level ++ [closing.toNat]

mutual

/-- A value as JSON. What JSON has no notation for is printed as null. -/
def print (level : Nat) : Value → Text
  | .bool true => .ofString "true"
  | .bool false => .ofString "false"
  | .int i => Decimal.ofInt i
  | .float d | .nan d _ => Shortest.text specials d
  | .text t => printString t
  | .list items => enclose '[' ']' level (printAll (level + 1) items)
  | .tuple items => enclose '[' ']' level (printAll (level + 1) items)
  | .table entries => enclose '\x7b' '\x7d' level (printEntries (level + 1) entries)
  | _ => .ofString "null"

/-- The items of an array. -/
def printAll (level : Nat) : List Value → List Text
  | [] => []
  | v :: vs => print level v :: printAll level vs

/-- The properties of an object. -/
def printEntries (level : Nat) : List (Value × Value) → List Text
  | [] => []
  | (k, v) :: rest => (printKey k ++ .ofString ": " ++ print level v) :: printEntries level rest

/-- The key of a property. -/
def printKey : Value → Text
  | .text t => printString t
  | v => printString (print 0 v)

end

end Descent.Json
