import Descent.Tag
import Descent.Text.Blank

/-!
# Classes of units

The sets of characters and bytes that have a leaf of their own, each with the tag of a failure to
find a member.
-/

namespace Descent

/-- The classes of characters with a leaf of their own. All letters and digits are ASCII. -/
inductive CharClass where
  | exactly (c : Nat)
  | any
  | oneOf (cs : List Nat)
  | noneOf (cs : List Nat)
  | octal
  | digit
  | letter
  | lower
  | upper
  | space
  | carriageReturn
  | lineFeed
  | tab
  | blank
deriving DecidableEq, Repr

namespace CharClass

/-- Whether a character is in the class. -/
def mem : CharClass → Nat → Bool
  | exactly c, u => u = c
  | any, _ => true
  | oneOf cs, u => cs.contains u
  | noneOf cs, u => !cs.contains u
  | octal, u => 48 ≤ u && u ≤ 55
  | digit, u => Text.isDigit u
  | letter, u => (97 ≤ u && u ≤ 122) || (65 ≤ u && u ≤ 90)
  | lower, u => 97 ≤ u && u ≤ 122
  | upper, u => 65 ≤ u && u ≤ 90
  | space, u => u = 32
  | carriageReturn, u => u = 13
  | lineFeed, u => u = 10
  | tab, u => u = 9
  | blank, u => Text.isBlank u

/-- The tag of a failure to find a character of the class. -/
def tag : CharClass → Tag
  | exactly _ => .char
  | any => .anyChar
  | oneOf _ => .oneOfChars
  | noneOf _ => .noneOfChars
  | octal => .octal
  | digit => .digit
  | letter => .alphabet
  | lower => .lowerAlphabet
  | upper => .upperAlphabet
  | space => .space
  | carriageReturn => .carriageReturn
  | lineFeed => .lineFeed
  | tab => .tab
  | blank => .whitespace

end CharClass

/-- The classes of bytes with a leaf of their own. -/
inductive ByteClass where
  | exactly (b : Nat)
  | any
deriving DecidableEq, Repr

namespace ByteClass

/-- Whether a byte is in the class. -/
def mem : ByteClass → Nat → Bool
  | exactly b, u => u = b
  | any, _ => true

/-- The tag of a failure to find a byte of the class. -/
def tag : ByteClass → Tag
  | exactly _ => .byte
  | any => .anyByte

end ByteClass

/-- Which letters a hexadecimal digit may be. -/
inductive HexCase where
  | both
  | upper
  | lower
deriving DecidableEq, Repr

namespace HexCase

/-- Whether a character is one of `a` to `f`. -/
def isLowerLetter (u : Nat) : Bool :=
  97 ≤ u && u ≤ 102

/-- Whether a character is one of `A` to `F`. -/
def isUpperLetter (u : Nat) : Bool :=
  65 ≤ u && u ≤ 70

/-- Whether a character is a hexadecimal digit of the case. -/
def mem : HexCase → Nat → Bool
  | both, u => Text.isDigit u || isUpperLetter u || isLowerLetter u
  | upper, u => Text.isDigit u || isUpperLetter u
  | lower, u => Text.isDigit u || isLowerLetter u

/-- The tag of a failure at a character that is not of the case: a letter digit asks for the other
case. -/
def tagAt (u : Nat) : Tag :=
  if isLowerLetter u then .upperHex
  else if isUpperLetter u then .lowerHex
  else .hex

end HexCase

end Descent
