/-!
# Text as code points

A text is the list of its code points. Surrogates are allowed: the escape `\ud800` of a JSON string
names one, and no `Char` is a surrogate, so `String` would be too small.
-/

namespace Descent

/-- A text, as the list of its code points. -/
abbrev Text := List Nat

namespace Text

/-- The code points of a string. -/
def ofString (s : String) : Text :=
  s.toList.map Char.toNat

/-- The line feed, which ends a line in text and in bytes alike. -/
def lineFeed : Nat := 10

/-- The index of the last occurrence of `u`. -/
def lastIndexOf? (u : Nat) : List Nat → Option Nat
  | [] => none
  | x :: xs =>
    match lastIndexOf? u xs with
    | some i => some (i + 1)
    | none => if x = u then some 0 else none

/-- Whether a part occurs in a text. -/
def occursIn (part : Text) : Text → Bool
  | [] => part.isEmpty
  | u :: rest => part.isPrefixOf (u :: rest) || occursIn part rest

/-- Texts joined with a separator between neighbours. -/
def intercalate (separator : Text) : List Text → Text
  | [] => []
  | [t] => t
  | t :: u :: rest => t ++ separator ++ intercalate separator (u :: rest)

/-- Whether the code point is an ASCII decimal digit. -/
def isDigit (u : Nat) : Bool :=
  48 ≤ u && u ≤ 57

/-- Whether the code point is a surrogate, which no well-formed encoding can hold. -/
def isSurrogate (u : Nat) : Bool :=
  0xD800 ≤ u && u ≤ 0xDFFF

end Text

end Descent
