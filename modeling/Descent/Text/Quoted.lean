import Descent.Text.Printable

/-!
# Quoted text and quoted bytes

A quoted text stands between single quotes, or between double quotes if it holds a single quote and
no double one. The backslash and the chosen quote are escaped, line feed, carriage return and tab
have letters, and any other hidden code point is written in hexadecimal with two, four or eight
digits. Bytes are quoted the same way behind a `b`, and every byte outside printable ASCII takes two
digits.
-/

namespace Descent.Text

/-- The code point of the lower-case hexadecimal digit with value `d`. -/
def hexDigit (d : Nat) : Nat :=
  if d < 10 then 48 + d else 87 + d

/-- The last `width` hexadecimal digits of `n`, in lower case. -/
def hex : (width : Nat) → (n : Nat) → Text
  | 0, _ => []
  | width + 1, n => hex width (n / 16) ++ [hexDigit (n % 16)]

namespace Quoted

/-- The quote that encloses a text: the double quote only where it saves an escape. -/
def quoteFor (t : List Nat) : Nat :=
  if t.contains 39 && !t.contains 34 then 34 else 39

/-- The escapes that quoted text and quoted bytes share. -/
def escape? (quote u : Nat) : Option Text :=
  if u = quote ∨ u = 92 then some [92, u]
  else if u = 9 then some (ofString "\\t")
  else if u = 10 then some (ofString "\\n")
  else if u = 13 then some (ofString "\\r")
  else none

/-- One code point of a quoted text. -/
def codePoint (quote u : Nat) : Text :=
  match escape? quote u with
  | some e => e
  | none =>
    if isPrintable u then [u]
    else if u < 0x100 then ofString "\\x" ++ hex 2 u
    else if u < 0x10000 then ofString "\\u" ++ hex 4 u
    else ofString "\\U" ++ hex 8 u

/-- One byte of quoted bytes. -/
def byte (quote u : Nat) : Text :=
  match escape? quote u with
  | some e => e
  | none => if 0x20 ≤ u && u < 0x7F then [u] else ofString "\\x" ++ hex 2 u

/-- A text between quotes. -/
def text (t : Text) : Text :=
  let quote := quoteFor t
  [quote] ++ t.flatMap (codePoint quote) ++ [quote]

/-- Bytes between quotes. -/
def bytes (b : List Nat) : Text :=
  let quote := quoteFor b
  [98, quote] ++ b.flatMap (byte quote) ++ [quote]

/-- Bytes of a buffer between quotes; a single quote is escaped also between double ones. -/
def buffer (b : List Nat) : Text :=
  let quote := quoteFor b
  [98, quote] ++ b.flatMap (byte 39) ++ [quote]

end Quoted

end Descent.Text
