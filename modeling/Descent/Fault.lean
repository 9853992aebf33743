import Descent.Number.Decimal

/-!
# Faults

A fault is a misuse that ends building or parsing at once, unlike a failed parse, which is an
ordinary result. Each constructor is one cause; `Fault.message` is its wording and `Fault.category`
its broad kind.
-/

namespace Descent

/-- The two kinds of input. -/
inductive Kind where
  | text
  | bytes
deriving DecidableEq, Repr

/-- The broad kinds of fault. -/
inductive Fault.Category where
  /-- A value of the wrong type. -/
  | type
  /-- A value of the right type that is not acceptable. -/
  | value
  /-- A place outside a sequence. -/
  | index
  /-- A key that a table does not hold. -/
  | key
  /-- A number too large for the place it is put in. -/
  | overflow
  /-- An operation that a value does not have. -/
  | attribute
  /-- A value too large to be held. -/
  | memory
deriving DecidableEq, Repr

/-- What can be indexed, as far as the wording of an index fault goes. -/
inductive Fault.Indexed where
  | text
  | bytes
  | buffer
  | list
  | tuple
deriving DecidableEq, Repr

/-- The comparisons that two values may be too different for. -/
inductive Fault.Comparison where
  | below
  | atMost
  | above
deriving DecidableEq, Repr

/-- A cause that ends building or parsing at once. Type names are given in the wording of the
messages. -/
inductive Fault where
  /-- A character parser was given something else than one character. -/
  | notOneCharacter
  /-- A string parser was given something else than text. -/
  | notText
  /-- A byte parser was given something else than an integer. -/
  | notInteger
  /-- A byte parser was given an integer that is no byte. -/
  | notByte
  /-- A slice parser was given something else than bytes. -/
  | notBytes
  /-- A hexadecimal digit parser was given an unknown case. -/
  | unknownHexCase
  /-- A repetition was given a minimum above its maximum. -/
  | emptyCountRange
  /-- A choice was given no alternative. -/
  | noAlternative
  /-- A value that has no items was taken apart into items. -/
  | notIterable (type : String)
  /-- An entry for a table has no items. -/
  | entryWithoutItems (place : Nat)
  /-- An entry for a table has not two items. -/
  | entryLength (place length : Nat)
  /-- A value that may change was used as the key of a table. -/
  | changeableKey (type : String)
  /-- A parser was run on something else than text, bytes or a stream. -/
  | unreadableInput (type : String)
  /-- Position tracking was started in a context that is no table. -/
  | contextNotTable (type : String)
  /-- What a context holds for position tracking is no tracker. -/
  | notTracker (type : String)
  /-- A table was extended where there is none. -/
  | notTable (type : String)
  /-- The length of a stream that stands past its end was taken. -/
  | negativeLength
  /-- A length does not fit into a machine word. -/
  | lengthTooLarge
  /-- An index lies outside a sequence. -/
  | indexOutside (sequence : Fault.Indexed)
  /-- An index does not fit into a machine word. -/
  | indexTooLarge
  /-- An index is no integer. -/
  | indexNotInteger (sequence : Fault.Indexed) (type : String)
  /-- A literal was compared with a source of the other kind. -/
  | literalKind (source : Kind) (type : String)
  /-- A tuple of literals holds one of the other kind. -/
  | literalItem (source : Kind) (type : String)
  /-- A table has no such key; the key is given as it is shown. -/
  | missingKey (shown : Text)
  /-- A callback ended the parse with a message of its own. -/
  | raised (message : Text)
  /-- A numeral has more digits than are read. -/
  | tooManyDigits (count : Nat)
  /-- A text, given as it is shown, is no integer numeral. -/
  | notNumeral (shown : Text)
  /-- A value is neither a numeral nor a number. -/
  | notNumber (type : String)
  /-- A NaN has no integral part. -/
  | integerOfNaN
  /-- An infinity has no integral part. -/
  | integerOfInfinity
  /-- An integer has more digits than are written. -/
  | notWritable
  /-- A value cannot be indexed. -/
  | notIndexable (type : String)
  /-- A value has no length. -/
  | noLength (type : String)
  /-- Only the items of a sequence can be joined. -/
  | notJoinable
  /-- An item to be joined is no text. -/
  | itemNotText (place : Nat) (type : String)
  /-- Text was to become bytes, and no encoding says how. -/
  | noEncoding
  /-- A value of this type cannot become bytes. -/
  | notConvertible (type : String)
  /-- Less than no bytes were asked for. -/
  | negativeCount
  /-- More bytes were asked for than bytes can hold. -/
  | bytesTooLong
  /-- More bytes were asked for than there is memory. -/
  | noMemory
  /-- An item to be stored as a byte is out of range. -/
  | itemNotByte
  /-- An item to be stored as a byte is no integer. -/
  | itemNotInteger (type : String)
  /-- One cannot be added to a value. -/
  | notIncrementable (type : String)
  /-- Two values have no order. -/
  | notComparable (comparison : Fault.Comparison) (left right : String)
  /-- A key was looked up where there is no table. -/
  | noLookup (type : String)
  /-- A value was searched that has no items. -/
  | notSearchable (type : String)
  /-- A text was searched for among bytes. -/
  | textAmongBytes
deriving DecidableEq, Repr

namespace Fault

/-- The broad kind of a fault. -/
def category : Fault → Category
  | notByte | unknownHexCase | emptyCountRange | noAlternative | entryLength _ _ | negativeLength
  | raised _ | tooManyDigits _ | notNumeral _ | integerOfNaN | notWritable | negativeCount
  | itemNotByte => .value
  | indexOutside _ | indexTooLarge => .index
  | missingKey _ => .key
  | lengthTooLarge | integerOfInfinity | bytesTooLong => .overflow
  | notTracker _ | noLookup _ => .attribute
  | noMemory => .memory
  | _ => .type

/-- The word for an indexed sequence in front of an index message; bytes have none. -/
def Indexed.word : Indexed → String
  | .text => "string "
  | .bytes => ""
  | .buffer => "bytearray "
  | .list => "list "
  | .tuple => "tuple "

/-- Which indices a sequence takes, and that a value of the given type is none. -/
def Indexed.indexMessage (sequence : Indexed) (type : String) : String :=
  match sequence with
  | .text => "string indices must be integers, not '" ++ type ++ "'"
  | .bytes => "byte indices must be integers or slices, not " ++ type
  | .buffer => "bytearray indices must be integers or slices, not " ++ type
  | .list => "list indices must be integers or slices, not " ++ type
  | .tuple => "tuple indices must be integers or slices, not " ++ type

/-- The sign of a comparison. -/
def Comparison.sign : Comparison → String
  | .below => "<"
  | .atMost => "<="
  | .above => ">"

/-- How much of what is no numeral a message shows. -/
def excerptLength : Nat := 200

/-- Why one cannot be added to a value of the given type. -/
def incrementMessage (type : String) : String :=
  if type = "str" || type = "list" || type = "tuple" then
    "can only concatenate " ++ type ++ " (not \"int\") to " ++ type
  else if type = "bytes" || type = "bytearray" then "can't concat int to " ++ type
  else "unsupported operand type(s) for +: '" ++ type ++ "' and 'int'"

/-- The wording of a fault. -/
def message : Fault → Text
  | notOneCharacter => .ofString "Argument of character parser must be a single character."
  | notText => .ofString "Argument of string parser must be a str."
  | notInteger => .ofString "Argument of byte parser must be an int."
  | notByte => .ofString "Argument of byte parser must be in range 0-255."
  | notBytes => .ofString "Argument of slice parser must be bytes."
  | unknownHexCase => .ofString "Hex case must be one of both, upper, lower."
  | emptyCountRange => .ofString "Maximum value must be greater than minimum value."
  | noAlternative => .ofString "choice requires at least one parser."
  | notIterable type => .ofString ("'" ++ type ++ "' object is not iterable")
  | entryWithoutItems place =>
    .ofString "cannot convert dictionary update sequence element #" ++ Decimal.ofNat place
      ++ .ofString " to a sequence"
  | entryLength place length =>
    .ofString "dictionary update sequence element #" ++ Decimal.ofNat place
      ++ .ofString " has length " ++ Decimal.ofNat length ++ .ofString "; 2 is required"
  | changeableKey type => .ofString ("unhashable type: '" ++ type ++ "'")
  | unreadableInput type => .ofString ("Parser input must be str or bytes, not " ++ type ++ ".")
  | contextNotTable type =>
    .ofString ("Position tracking needs a mapping context, not " ++ type ++ ".")
  | notTracker type => .ofString ("'" ++ type ++ "' object has no attribute 'last_input'")
  | notTable type => .ofString ("'" ++ type ++ "' object is not a mapping")
  | negativeLength => .ofString "__len__() should return >= 0"
  | lengthTooLarge | indexTooLarge => .ofString "cannot fit 'int' into an index-sized integer"
  | indexOutside sequence => .ofString (sequence.word ++ "index out of range")
  | indexNotInteger sequence type => .ofString (sequence.indexMessage type)
  | literalKind .text type =>
    .ofString ("startswith first arg must be str or a tuple of str, not " ++ type)
  | literalKind .bytes type =>
    .ofString ("startswith first arg must be bytes or a tuple of bytes, not " ++ type)
  | literalItem .text type => .ofString ("tuple for startswith must only contain str, not " ++ type)
  | literalItem .bytes type => .ofString ("a bytes-like object is required, not '" ++ type ++ "'")
  | missingKey shown => shown
  | raised message => message
  | tooManyDigits count =>
    .ofString "Exceeds the limit (" ++ Decimal.ofNat Decimal.maxDigits
      ++ .ofString " digits) for integer string conversion: value has " ++ Decimal.ofNat count
      ++ .ofString " digits; use sys.set_int_max_str_digits() to increase the limit"
  | notNumeral shown =>
    .ofString "invalid literal for int() with base 10: " ++ shown.take excerptLength
  | notNumber type =>
    .ofString ("int() argument must be a string, a bytes-like object or a real number, not '"
      ++ type ++ "'")
  | integerOfNaN => .ofString "cannot convert float NaN to integer"
  | integerOfInfinity => .ofString "cannot convert float infinity to integer"
  | notWritable =>
    .ofString "Exceeds the limit (" ++ Decimal.ofNat Decimal.maxDigits
      ++ .ofString " digits) for integer string conversion; "
      ++ .ofString "use sys.set_int_max_str_digits() to increase the limit"
  | notIndexable type => .ofString ("'" ++ type ++ "' object is not subscriptable")
  | noLength type => .ofString ("object of type '" ++ type ++ "' has no len()")
  | notJoinable => .ofString "can only join an iterable"
  | itemNotText place type =>
    .ofString "sequence item " ++ Decimal.ofNat place
      ++ .ofString (": expected str instance, " ++ type ++ " found")
  | noEncoding => .ofString "string argument without an encoding"
  | notConvertible type => .ofString ("cannot convert '" ++ type ++ "' object to bytes")
  | negativeCount => .ofString "negative count"
  | bytesTooLong => .ofString "byte string is too large"
  | noMemory => []
  | itemNotByte => .ofString "bytes must be in range(0, 256)"
  | itemNotInteger type => .ofString ("'" ++ type ++ "' object cannot be interpreted as an integer")
  | notIncrementable type => .ofString (incrementMessage type)
  | notComparable comparison left right =>
    .ofString ("'" ++ comparison.sign ++ "' not supported between instances of '" ++ left
      ++ "' and '" ++ right ++ "'")
  | noLookup type => .ofString ("'" ++ type ++ "' object has no attribute 'get'")
  | notSearchable type => .ofString ("argument of type '" ++ type ++ "' is not iterable")
  | textAmongBytes => .ofString "a bytes-like object is required, not 'str'"

end Fault

end Descent
