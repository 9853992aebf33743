import Descent.Leaf
import Descent.Rule.Repeat

/-!
# Grammars

A grammar describes a parser before it is built. Its arguments are any values, and building refuses
those that make no sense; a grammar under `lazy`, or named by `ref`, is built only when it is first
used, so grammars may refer to themselves. Callbacks are functions on values that may end the parse
with a fault.
-/

namespace Descent

/-- A leaf with the arguments it was asked for. -/
inductive Terminal where
  /-- A leaf that needs no check. -/
  | leaf (l : Leaf)
  | char (c : Value)
  | oneOf (cs : List Value)
  | noneOf (cs : List Value)
  | hex (case : Value)
  | string (literal : Value)
  | byte (b : Value)
  | slice (literal : Value)
  | escapedWith (control entries : Value)
  | escapedBy (control : Value) (decode : Value → Except Fault Value)

/-- What a hook does with a context before the rule runs. -/
inductive Hook.Entry where
  /-- Run the rule in this context. -/
  | proceed (context : Value)
  /-- End with this result. -/
  | finish (result : Result)

/-- A way to wrap a rule: what happens before it runs and what becomes of its result. -/
structure Hook where
  before : Stream → Value → Except Fault Hook.Entry := fun _ c => .ok (.proceed c)
  after : Result → Except Fault Result := .ok

/-- The ways to build a parser from one other. -/
inductive Unary where
  | map (f : Value → Except Fault Value)
  | mapError (f : Value → Except Fault Value)
  | optional
  | many (least most : Count)
  | many1
  | trimmed
  | tracked
  /-- Runs as its part does; called without a context, it starts from this one. -/
  | context (initial : Value)
  | traced (label : Text)
  | hooked (hook : Hook)

/-- The ways to build a parser from two others. -/
inductive Binary where
  | both
  | keepLeft
  | keepRight
  | orElse
  /-- The first repeated up to where the second succeeds. -/
  | manyUntil
  /-- The second repeated with the first between. -/
  | separated (trailing : Rule.Trailing) (least most : Count)
  /-- The second repeated at least once with the first between. -/
  | separated1 (trailing : Rule.Trailing)

/-- A description of a parser. -/
inductive Grammar where
  | terminal (t : Terminal)
  | unary (op : Unary) (g : Grammar)
  | binary (op : Binary) (g h : Grammar)
  | between (opening closing inner : Grammar)
  | serial (gs : List Grammar)
  | choice (gs : List Grammar)
  | bind (g : Grammar) (f : Value → Except Fault Grammar)
  | lazy (g : Grammar)
  | ref (name : Text)

/-- The grammars that `ref` can name. -/
abbrev Rules := Text → Option Grammar

namespace Grammar

/-- A leaf that needs no check, as a grammar. -/
def leaf (l : Leaf) : Grammar :=
  .terminal (.leaf l)

/-- One given character. -/
def char (c : Char) : Grammar :=
  .terminal (.char (.text [c.toNat]))

/-- A given text. -/
def string (s : String) : Grammar :=
  .terminal (.string (.text (.ofString s)))

/-- Applies a function to the output. -/
def map (g : Grammar) (f : Value → Except Fault Value) : Grammar :=
  .unary (.map f) g

/-- Skips leading blanks. -/
def trimmed (g : Grammar) : Grammar :=
  .unary .trimmed g

/-- Null where the grammar does not match. -/
def optional (g : Grammar) : Grammar :=
  .unary .optional g

/-- Any number of repetitions. -/
def many0 (g : Grammar) : Grammar :=
  .unary (.many (.finite 0) .infinite) g

/-- Exactly `n` repetitions. -/
def exactly (n : Count) (g : Grammar) : Grammar :=
  .unary (.many n n) g

/-- One or more repetitions. -/
def many1 (g : Grammar) : Grammar :=
  .unary .many1 g

/-- The first grammar, then the second, with the output of the second. -/
def keepRight (g h : Grammar) : Grammar :=
  .binary .keepRight g h

/-- The grammar's output between the positions where its text starts and ends. -/
def spanned (g : Grammar) : Grammar :=
  (serial [leaf .position, g, leaf .position]).map fun v => .ok (Rule.toSpan v)

/-- Any number of items with separators between them; a separator at the end is left unread. -/
def sepBy (separator item : Grammar) : Grammar :=
  .binary (.separated .leave (.finite 0) .infinite) separator item

end Grammar

end Descent
