import Descent.Number.Decimal
import Descent.Number.Double
import Descent.Text.Blank
import Descent.Value.Table

/-!
# Descent — the notation of JSON values

Which texts are written values, and which values they are, said without a parser. With `W` for any
run of blanks:

* **value** — `W` and one of `true`, `false`, `null`, a string, an object, a number, an array.
* **string** — pieces between quotes: any character but the quote and the backslash, a backslash
  with a character that has a meaning behind it, or a backslash, the letter `u` and four hexadecimal
  digits of either case.
* **number** — digits, with an optional minus in front and an optional point with digits behind.
* **array** — values with commas between them and `W` before each comma, between `[` and `]`, inside
  of which `W` may stand on both sides.
* **object** — the same with properties between braces; a property is a string, a colon and a value,
  with `W` before each of them.

The relations are indexed by the text and by its meaning. Those for items and properties take the
relation for values as a parameter, and `Spells` closes the circle.
-/

namespace Descent.Json

def Blanks (w : Text) : Prop :=
  ∀ u ∈ w, Text.isBlank u = true

theorem Blanks.nil : Blanks [] :=
  List.forall_mem_nil _

instance (w : Text) : Decidable (Blanks w) :=
  inferInstanceAs (Decidable (∀ u ∈ w, Text.isBlank u = true))

/-! ## Strings

A string is a run of pieces, each of which stands for one code point. An escape `\uXXXX` is one
piece, also where it names a surrogate. -/

/-- A hexadecimal digit of either case and its value. -/
inductive HexDigit : Nat → Nat → Prop where
  | decimal {d : Nat} (h : d < 10) : HexDigit (48 + d) d
  | upper {d : Nat} (h : d < 6) : HexDigit (65 + d) (10 + d)
  | lower {d : Nat} (h : d < 6) : HexDigit (97 + d) (10 + d)

/-- The characters with a meaning behind a backslash: the quote, the backslash and the slash mean
themselves, and the letters b, f, n, r and t mean backspace, form feed, line feed, carriage return
and tab. -/
def escapeMeanings : List (Nat × Nat) :=
  [(34, 34), (92, 92), (47, 47), (98, 8), (102, 12), (110, 10), (114, 13), (116, 9)]

/-- One piece of a string and its code point. -/
inductive Piece : Text → Nat → Prop where
  | raw {u : Nat} (hquote : u ≠ 34) (hbackslash : u ≠ 92) : Piece [u] u
  | escape {k u : Nat} (h : (k, u) ∈ escapeMeanings) : Piece [92, k] u
  | code {a b c d w x y z : Nat} (ha : HexDigit a w) (hb : HexDigit b x) (hc : HexDigit c y)
      (hd : HexDigit d z) :
      Piece [92, 117, a, b, c, d] (4096 * w + 256 * x + 16 * y + z)

inductive Pieces : Text → Text → Prop where
  | nil : Pieces [] []
  | cons {t t' : Text} {u : Nat} {us : Text} (h : Piece t u) (hrest : Pieces t' us) :
      Pieces (t ++ t') (u :: us)

/-- A string between its quotes, and its text. -/
inductive StringLiteral : Text → Text → Prop where
  | intro {t us : Text} (h : Pieces t us) : StringLiteral (34 :: t ++ [34]) us

/-! ## Numbers

A number ends where it is not continued: digits are read as far as they go, and a point belongs to
the number if a digit follows it. -/

structure Digits (ds : Text) : Prop where
  nonempty : ds ≠ []
  all : ∀ u ∈ ds, Text.isDigit u = true

def minus (negative : Bool) : Text :=
  if negative then [45] else []

/-- A number and its value: an integer, or the double nearest to a decimal fraction. -/
inductive NumberLiteral : Text → Value → Prop where
  | whole (negative : Bool) {ds : Text} (h : Digits ds) :
      NumberLiteral (minus negative ++ ds)
        (.int (if negative then -(Decimal.value ds : Int) else Decimal.value ds))
  | fraction (negative : Bool) {ds fs : Text} (h : Digits ds) (hfraction : Digits fs) :
      NumberLiteral (minus negative ++ ds ++ 46 :: fs)
        (.float (.ofFraction negative (Decimal.value (ds ++ fs)) (Nat.pow 10 fs.length)))

/-- No run of digits in the text is too long to be read as an integer. -/
def ShortRuns (t : Text) : Prop :=
  ∀ ds, ds <:+: t → (∀ u ∈ ds, Text.isDigit u = true) → ds.length ≤ Decimal.maxDigits

def digitAhead : Text → Bool
  | u :: _ => Text.isDigit u
  | [] => false

/-- Whether a point with a digit behind follows. -/
def fractionAhead : Text → Bool
  | 46 :: r => digitAhead r
  | _ => false

/-- Whether what follows a value would be read as more of it: only a number can be continued, by a
digit, and a whole number also by a fraction. -/
def continues : Value → Text → Bool
  | .int _, r => digitAhead r || fractionAhead r
  | .float _, r => digitAhead r
  | _, _ => false

/-! ## Items -/

section

variable {α : Type} (P : Text → α → Prop)

/-- One or more items with commas between them. -/
inductive Items : Text → List α → Prop where
  | one {t : Text} {x : α} (h : P t x) : Items t [x]
  | more {t w t' : Text} {x : α} {xs : List α} (h : P t x) (hw : Blanks w) (hrest : Items t' xs) :
      Items (t ++ w ++ 44 :: t') (x :: xs)

/-- Items between brackets, or none. -/
inductive Bracketed (opening closing : Nat) : Text → List α → Prop where
  | empty {w w' : Text} (hw : Blanks w) (hw' : Blanks w') :
      Bracketed opening closing (opening :: w ++ w' ++ [closing]) []
  | items {w t w' : Text} {xs : List α} (hw : Blanks w) (h : Items P t xs) (hw' : Blanks w') :
      Bracketed opening closing (opening :: w ++ t ++ w' ++ [closing]) xs

end

/-! ## Values -/

/-- The table of properties in order: a repeated key keeps its first place and takes its last
value. -/
def dictionary (ps : List (Text × Value)) : Table.Entries :=
  (ps.map Prod.fst).eraseDups.filterMap fun k => (ps.reverse.lookup k).map fun v => (.text k, v)

/-- A property: its key and its value. -/
inductive Property (V : Text → Value → Prop) : Text → Text × Value → Prop where
  | intro {w t w' t' k : Text} {v : Value} (hw : Blanks w) (hk : StringLiteral t k)
      (hw' : Blanks w') (hv : V t' v) :
      Property V (w ++ t ++ w' ++ 58 :: t') (k, v)

/-- A value without blanks in front. -/
inductive Bare (V : Text → Value → Prop) : Text → Value → Prop where
  | true : Bare V (.ofString "true") (.bool true)
  | false : Bare V (.ofString "false") (.bool false)
  | null : Bare V (.ofString "null") .null
  | string {t us : Text} (h : StringLiteral t us) : Bare V t (.text us)
  | object {t : Text} {ps : List (Text × Value)} (h : Bracketed (Property V) 123 125 t ps) :
      Bare V t (.table (dictionary ps))
  | number {t : Text} {v : Value} (h : NumberLiteral t v) : Bare V t v
  | array {t : Text} {vs : List Value} (h : Bracketed V 91 93 t vs) : Bare V t (.list vs)

/-- A written value and what it is. -/
inductive Spells : Text → Value → Prop where
  | intro {w t : Text} {v : Value} (hw : Blanks w) (h : Bare Spells t v) : Spells (w ++ t) v

end Descent.Json
