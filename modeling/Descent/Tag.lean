import Descent.Text

/-!
# Failure tags

Every parser of the toolkit that fails on its own account says so with one of these tags.
-/

namespace Descent

/-- What a failed parser was looking for. -/
inductive Tag where
  | char
  | anyChar
  | oneOfChars
  | noneOfChars
  | escapedWith
  | escapedBy
  | string
  | octal
  | digit
  | hex
  | upperHex
  | lowerHex
  | alphabet
  | lowerAlphabet
  | upperAlphabet
  | byte
  | anyByte
  | slice
  | space
  | carriageReturn
  | lineFeed
  | carriageReturnLineFeed
  | linebreak
  | tab
  | whitespace
  | endOfFile
  | satisfy
  | missingPositionContext
  | many
  | sepBy
  | sepEndBy
deriving DecidableEq, Repr

namespace Tag

/-- All tags, in the order in which they are listed. -/
def all : List Tag :=
  [char, anyChar, oneOfChars, noneOfChars, escapedWith, escapedBy, string, octal, digit, hex,
    upperHex, lowerHex,
   alphabet, lowerAlphabet, upperAlphabet, byte, anyByte, slice, space, carriageReturn, lineFeed,
   carriageReturnLineFeed, linebreak, tab, whitespace, endOfFile, satisfy,
     missingPositionContext, many, sepBy,
   sepEndBy]

/-- The words of a tag's name. Both spellings of a tag are made of them. -/
def words : Tag → List String
  | char => ["Char"]
  | anyChar => ["Any", "Char"]
  | oneOfChars => ["One", "Of", "Chars"]
  | noneOfChars => ["None", "Of", "Chars"]
  | escapedWith => ["Escaped", "With"]
  | escapedBy => ["Escaped", "By"]
  | string => ["String"]
  | octal => ["Octal"]
  | digit => ["Digit"]
  | hex => ["Hex"]
  | upperHex => ["Upper", "Hex"]
  | lowerHex => ["Lower", "Hex"]
  | alphabet => ["Alphabet"]
  | lowerAlphabet => ["Lower", "Alphabet"]
  | upperAlphabet => ["Upper", "Alphabet"]
  | byte => ["Byte"]
  | anyByte => ["Any", "Byte"]
  | slice => ["Slice"]
  | space => ["Space"]
  | carriageReturn => ["Carriage", "Return"]
  | lineFeed => ["Line", "Feed"]
  | carriageReturnLineFeed => ["Carriage", "Return", "Line", "Feed"]
  | linebreak => ["Linebreak"]
  | tab => ["Tab"]
  | whitespace => ["Whitespace"]
  | endOfFile => ["End", "Of", "File"]
  | satisfy => ["Satisfy"]
  | missingPositionContext => ["Missing", "Position", "Context"]
  | many => ["Many"]
  | sepBy => ["Sep", "By"]
  | sepEndBy => ["Sep", "End", "By"]

/-- The name of a tag, its words run together. -/
def name (t : Tag) : Text :=
  t.words.flatMap Text.ofString

/-- The constant that stands for a tag, its words in capitals with underscores between them. -/
def constant (t : Tag) : Text :=
  Text.intercalate [95] (t.words.map fun w => Text.ofString w.toUpper)

/-- The tag with the given name. -/
def ofName? (n : Text) : Option Tag :=
  all.find? fun t => t.name = n

end Tag

end Descent
