import Descent.Leaf.Class
import Descent.Rule.Track

/-!
# Leaves

The parsers that contain no other parser. Most accept one unit of a class or one of a few literals,
consume exactly that and give it back as their output; a leaf that does not match fails with its tag
at the stream it was given. Text leaves fail on bytes and byte leaves on text.
-/

namespace Descent

/-- A parser that contains no other. -/
inductive Leaf where
  /-- Succeeds with a value and consumes nothing. -/
  | succeed (v : Value)
  /-- Fails with an error. -/
  | fail (e : Value)
  /-- One unit that a test accepts, or the given error. -/
  | unit (accepts : Value → Except Fault Bool) (error : Value)
  /-- One character of a class. -/
  | char (cls : CharClass)
  /-- One hexadecimal digit. -/
  | hex (case : HexCase)
  /-- A literal text. -/
  | string (literal : Text)
  /-- A carriage return with a line feed. -/
  | crlf
  /-- A line feed, or a carriage return with a line feed. -/
  | linebreak
  /-- One byte of a class. -/
  | byte (cls : ByteClass)
  /-- Literal bytes. -/
  | slice (literal : List Nat)
  /-- A control character and a key of the table, with the value under the key. -/
  | escapedWith (control : Nat) (entries : List (Nat × Value))
  /-- A control character and any other, with what a function makes of it unless that is null. -/
  | escapedBy (control : Nat) (decode : Value → Except Fault Value)
  /-- The end of the input. -/
  | endOfInput
  /-- The current position. -/
  | position
  /-- Any other function from a stream and a context to a result. -/
  | custom (run : Stream → Value → Except Fault Result)

namespace Leaf

/-- One unit of the given kind in a class. -/
def matchUnit (kind : Kind) (mem : Nat → Bool) (tag : Tag) (s : Stream) (c : Value) :
    Except Fault Result := do
  match ← s.peek 0 with
  | some u =>
    if s.kind = kind && mem u then return .ok (s.advance 1) (.ofUnit kind u) c
    else return .err s (.tag tag) c
  | none => return .err s (.tag tag) c

/-- One of some literals of the given kind, the first that stands at the stream. -/
def matchLiteral (kind : Kind) (tag : Tag) (s : Stream) (c : Value) : List (List Nat) → Result
  | [] => .err s (.tag tag) c
  | literal :: rest =>
    if s.kind = kind && s.startsWith literal then
      .ok (s.advance literal.length) (.ofUnits kind literal) c
    else matchLiteral kind tag s c rest

/-- One unit that a test accepts. -/
def matchTest (accepts : Value → Except Fault Bool) (error : Value) (s : Stream) (c : Value) :
    Except Fault Result := do
  match ← s.peek 0 with
  | some u =>
    let x := Value.ofUnit s.kind u
    if ← accepts x then return .ok (s.advance 1) x c else return .err s error c
  | none => return .err s error c

/-- One hexadecimal digit. -/
def matchHex (case : HexCase) (s : Stream) (c : Value) : Except Fault Result := do
  match ← s.peek 0 with
  | some u =>
    if s.isText then
      if case.mem u then return .ok (s.advance 1) (.text [u]) c
      else return .err s (.tag (HexCase.tagAt u)) c
    else return .err s (.tag .hex) c
  | none => return .err s (.tag .hex) c

/-- The last value that the entries give a key. -/
def meaningOf? (key : Nat) (entries : List (Nat × Value)) : Option Value :=
  (entries.reverse.find? fun e => e.1 = key).map (·.2)

/-- Whether the control character stands at the stream. -/
def atControl (control : Nat) (s : Stream) : Except Fault Bool := do
  return s.isText && (← s.peek 0) = some control

/-- A control character and a key of the entries. -/
def matchEntry (control : Nat) (entries : List (Nat × Value)) (s : Stream) (c : Value) :
    Except Fault Result := do
  if ← atControl control s then
    match (← s.peek 1).bind (meaningOf? · entries) with
    | some v => return .ok (s.advance 2) v c
    | none => return .err s (.tag .escapedWith) c
  else return .err s (.tag .escapedWith) c

/-- A control character and a character that can be decoded. -/
def matchDecoded (control : Nat) (decode : Value → Except Fault Value) (s : Stream) (c : Value) :
    Except Fault Result := do
  let failed : Result := .err s (.tag .escapedBy) c
  if (← s.length) < 2 then return failed
  if !(← atControl control s) then return failed
  match ← s.peek 1 with
  | none => return failed
  | some u =>
    match ← decode (.ofUnit s.kind u) with
    | .null => return failed
    | v => return .ok (s.advance 2) v c

/-- The carriage return with the line feed. -/
def crlfLiteral : Text := [13, 10]

/-- What a leaf does. -/
def run : Leaf → Stream → Value → Except Fault Result
  | succeed v, s, c => .ok (.ok s v c)
  | fail e, s, c => .ok (.err s e c)
  | unit accepts error, s, c => matchTest accepts error s c
  | char cls, s, c => matchUnit .text cls.mem cls.tag s c
  | hex case, s, c => matchHex case s c
  | string literal, s, c => .ok (matchLiteral .text .string s c [literal])
  | crlf, s, c => .ok (matchLiteral .text .carriageReturnLineFeed s c [crlfLiteral])
  | linebreak, s, c => .ok (matchLiteral .text .linebreak s c [[Text.lineFeed], crlfLiteral])
  | byte cls, s, c => matchUnit .bytes cls.mem cls.tag s c
  | slice literal, s, c => .ok (matchLiteral .bytes .slice s c [literal])
  | escapedWith control entries, s, c => matchEntry control entries s c
  | escapedBy control decode, s, c => matchDecoded control decode s c
  | endOfInput, s, c => do
    if (← s.length) = 0 then return .ok s .null c else return .err s (.tag .endOfFile) c
  | position, s, c => Rule.position s c
  | custom run, s, c => run s c

/-- A leaf as a rule over any state. -/
def toRule {σ : Type} (l : Leaf) : Rule σ :=
  fun s c => Run.lift (l.run s c)

end Leaf

end Descent
