import Descent.Grammar
import Descent.Number.Reading
import Descent.Value.Items

/-!
# A JSON grammar

JSON, except that any blank character may stand between tokens, a string may hold any character but
the quote and the backslash as it is, and a number has no exponent but may have leading zeros. A
number with a fraction is a double, any other an integer. An object is a table: a repeated key keeps
its first place and takes its last value. An escape `\uXXXX` is one code point, also where it is a
surrogate.
-/

namespace Descent.Json

/-- The name of the rule for values, by which arrays and objects refer to it. -/
def valueName : Text := .ofString "value"

/-- A value, built where it is first used. -/
def value : Grammar :=
  .ref valueName

/-- A word that stands for a value. -/
def word (s : String) (v : Value) : Grammar :=
  (Grammar.string s).map fun _ => .ok v

/-- `true` or `false`. -/
def boolean : Grammar :=
  .binary .orElse (word "true" (.bool true)) (word "false" (.bool false))

/-- `null`. -/
def null : Grammar :=
  word "null" .null

/-- The number that sign, digits and fraction digits denote. -/
def number (negative : Bool) (digits fraction : Text) : Except Fault Value :=
  if fraction.isEmpty then do return .int (← Decimal.signed negative digits)
  else
    .ok (.float (.ofFraction negative (Decimal.value (digits ++ fraction))
      (Nat.pow 10 fraction.length)))

/-- The number that the parts of a numeral denote. -/
def toNumber : Value → Except Fault Value
  | .tuple [sign, .text digits, .text fraction] => number (sign.equal (.text [45])) digits fraction
  | .tuple [sign, .text digits, _] => number (sign.equal (.text [45])) digits []
  | v => .ok v

/-- One or more digits, as one text. -/
def digits : Grammar :=
  (Grammar.many1 (.leaf (.char .digit))).map Value.join

/-- A number. -/
def numeral : Grammar :=
  (Grammar.serial
    [.optional (.char '-'), digits, .optional (.keepRight (.char '.') digits)]).map toNumber

/-- What the characters behind a backslash stand for. -/
def escapes : List (Char × Nat) :=
  [('"', 34), ('\\', 92), ('/', 47), ('b', 8), ('f', 12), ('n', 10), ('r', 13), ('t', 9)]

/-- A backslash and one of the characters with a meaning behind it. -/
def simpleEscape : Grammar :=
  .terminal (.escapedWith (.text [92])
    (.list (escapes.map fun e => .tuple [.text [e.1.toNat], .text [e.2]])))

/-- The value of a hexadecimal digit of either case. -/
def hexValue (u : Nat) : Nat :=
  if u ≤ 57 then u - 48 else if u ≤ 70 then u - 55 else u - 87

/-- The code point that hexadecimal digits denote. -/
def toCodePoint (v : Value) : Except Fault Value := do
  match ← v.join with
  | .text t => return .text [t.foldl (fun n u => 16 * n + hexValue u) 0]
  | v => return v

/-- A backslash, the letter u and four hexadecimal digits. -/
def unicodeEscape : Grammar :=
  (Grammar.keepRight (.string "\\u") (.exactly (.finite 4) (.leaf (.hex .both)))).map toCodePoint

/-- A string. -/
def string : Grammar :=
  (Grammar.between (.char '"') (.char '"') (.many0 (.choice
    [.leaf (.char (.noneOf [34, 92])), simpleEscape, unicodeEscape]))).map Value.join

/-- Items between brackets, with commas between them. -/
def bracketed (opening closing : Char) (item : Grammar) : Grammar :=
  .between (.char opening) (.trimmed (.char closing))
    (.trimmed (.sepBy (.trimmed (.char ',')) item))

/-- An array. -/
def array : Grammar :=
  bracketed '[' ']' value

/-- The first and the last of three parts. -/
def keyAndValue : Value → Except Fault Value
  | .tuple [key, _, v] => .ok (.tuple [key, v])
  | v => .ok v

/-- A key, a colon and a value. -/
def property : Grammar :=
  (Grammar.serial [.trimmed string, .trimmed (.char ':'), value]).map keyAndValue

/-- An object. -/
def object : Grammar :=
  (bracketed '\x7b' '\x7d' property).map fun v => do return .table (← v.toEntries)

/-- What a value is, behind any blanks. -/
def valueRule : Grammar :=
  .trimmed (.choice [boolean, null, string, object, numeral, array])

/-- The one named rule. -/
def rules : Rules :=
  fun name => if name = valueName then some valueRule else none

end Descent.Json
