import Descent.Json.Rules
import Descent.Proofs.Follows
import Descent.Proofs.Json.Dictionary

/-!
# Descent — the JSON rules as scans

On a text, what the JSON rules do is decided by the text that is left. This module writes the scan
of each rule down and shows that the rule follows it.

* **`scanNumber`, `scanString`, `scanBracketed`, `scanProperty`** — the parts, with the rule for
  values as a parameter where they need it.
* **`scanValue`** — the scan of a value, nested up to a given depth.
* **`direct_value_eq`** — the parser for values, run with any budget that exceeds the length of the
  text that is left, is the scan. The induction is on the depth; behind a bracket the text is
  shorter.
-/

namespace Descent.Json

/-! ## The scans

One for each rule, in the order of the grammar and with outputs of their own types: code points,
texts, lists of values, pairs of key and value. Only a number can be at fault. What is nested takes
the scan for values as a parameter, and `scanValue` supplies it, one level less deep each time. -/

def scanChar (u : Nat) : Scan Nat :=
  .unit (CharClass.exactly u).mem fun _ => .tag .char

def scanWord (s : String) (v : Value) : Scan Value := do
  let _ ← Scan.literal (.ofString s) (.tag .string)
  return v

def scanDigits : Scan Text :=
  Scan.many1 (.unit Text.isDigit fun _ => .tag .digit)

def scanFraction : Scan Text := do
  let _ ← scanChar 46
  scanDigits

def scanNumeral : Scan (Option Nat × Text × Option Text) := do
  let sign ← (scanChar 45).optional
  let digits ← scanDigits
  let fraction ← scanFraction.optional
  return (sign, digits, fraction)

def scanNumber : Scan Value := do
  let (sign, digits, fraction) ← scanNumeral
  Scan.lift (number (sign = some 45) digits (fraction.getD []))

def scanEscape : Scan Nat :=
  .entry 92 (fun k => escapeMeanings.lookup k) (.tag .escapedWith)

def scanHex : Scan Nat :=
  .unit HexCase.both.mem Rule.Follows.hexError

/-- A backslash, the letter u and four hexadecimal digits, which are the output. -/
def scanHexDigits : Scan Text := do
  let _ ← Scan.literal (.ofString "\\u") (.tag .string)
  scanHex.exactly 4 fun ds => .shortfall .many (ds.map fun u => .text [u])

def scanCode : Scan Nat := do
  let ds ← scanHexDigits
  return ds.foldl (fun n u => 16 * n + hexValue u) 0

def scanPiece : Scan Nat :=
  .orElse (.unit (CharClass.noneOf [34, 92]).mem fun _ => .tag .noneOfChars)
    (.orElse scanEscape scanCode)

def scanString : Scan Text := do
  let _ ← scanChar 34
  let t ← scanPiece.many
  let _ ← scanChar 34
  return t

def scanBracketed {α : Type} (opening closing : Nat) (item : Scan α) : Scan (List α) := do
  let _ ← scanChar opening
  let xs ← (Scan.sepBy (scanChar 44).trimmed item).trimmed
  let _ ← (scanChar closing).trimmed
  return xs

/-- A key, a colon and a value. -/
def scanEntry (value : Scan Value) : Scan (Text × Nat × Value) := do
  let key ← scanString.trimmed
  let colon ← (scanChar 58).trimmed
  let v ← value
  return (key, colon, v)

def scanProperty (value : Scan Value) : Scan (Text × Value) := do
  let (key, _, v) ← scanEntry value
  return (key, v)

def scanObject (value : Scan Value) : Scan Value := do
  let ps ← scanBracketed 123 125 (scanProperty value)
  return .table (dictionary ps)

def scanArray (value : Scan Value) : Scan Value := do
  let vs ← scanBracketed 91 93 value
  return .list vs

/-- A value without blanks in front. -/
def scanBare (value : Scan Value) : Scan Value :=
  .orElse (.orElse (scanWord "true" (.bool true)) (scanWord "false" (.bool false)))
    (.orElse (scanWord "null" .null)
      (.orElse (do return .text (← scanString))
        (.orElse (scanObject value) (.orElse scanNumber (scanArray value)))))

/-- A value that is nested no deeper than `depth`. -/
def scanValue : (depth : Nat) → Scan Value
  | 0 => .miss .null
  | depth + 1 => (scanBare (scanValue depth)).trimmed

/-! ## Where they end

Every scan goes forward, part by part. That the character and the piece consume is for the loops. -/

theorem consumes_scanChar (u : Nat) : (scanChar u).Consumes :=
  .unit

theorem forward_scanChar (u : Nat) : (scanChar u).Forward :=
  .unit

/-- Of a code escape, the backslash and the letter are read at least. -/
theorem consumes_scanCode : scanCode.Consumes := by
  have hdigits : scanHexDigits.Consumes :=
    (Scan.Consumes.literal (by decide)).bind fun _ => Scan.Forward.unit.exactly
  exact hdigits.bind fun _ => .pure

/-- A piece is a character, an escape or a code escape, and none of them is empty. -/
theorem consumes_scanPiece : scanPiece.Consumes :=
  .orElse .unit (.orElse .entry consumes_scanCode)

theorem forward_scanDigits : scanDigits.Forward :=
  Scan.Forward.unit.many1

theorem forward_scanFraction : scanFraction.Forward :=
  (forward_scanChar 46).bind fun _ => forward_scanDigits

/-- The parts of a number follow each other, and reading their value reads nothing more of the
text. -/
theorem forward_scanNumber : scanNumber.Forward := by
  have hparts : scanNumeral.Forward :=
    (forward_scanChar 45).optional.bind fun _ => forward_scanDigits.bind fun _ =>
      forward_scanFraction.optional.bind fun _ => .pure
  exact hparts.bind fun _ => .lift

/-- Each of the three kinds of pieces goes forward. -/
theorem forward_scanPiece : scanPiece.Forward := by
  have hdigits : scanHexDigits.Forward :=
    Scan.Forward.literal.bind fun _ => Scan.Forward.unit.exactly
  exact .orElse .unit (.orElse .entry (hdigits.bind fun _ => .pure))

theorem forward_scanString : scanString.Forward :=
  (forward_scanChar 34).bind fun _ => forward_scanPiece.many.bind fun _ =>
    (forward_scanChar 34).bind fun _ => .pure

theorem forward_scanBracketed {α : Type} {item : Scan α} (hitem : item.Forward)
    (opening closing : Nat) :
    (scanBracketed opening closing item).Forward :=
  (forward_scanChar opening).bind fun _ =>
    ((forward_scanChar 44).trimmed.sepBy hitem).trimmed.bind fun _ =>
    (forward_scanChar closing).trimmed.bind fun _ => .pure

theorem forward_scanProperty {value : Scan Value} (hvalue : value.Forward) :
    (scanProperty value).Forward := by
  have hentry : (scanEntry value).Forward :=
    forward_scanString.trimmed.bind fun _ => (forward_scanChar 58).trimmed.bind fun _ =>
      hvalue.bind fun _ => .pure
  exact hentry.bind fun _ => .pure

theorem forward_scanWord (s : String) (v : Value) : (scanWord s v).Forward :=
  Scan.Forward.literal.bind fun _ => .pure

/-- A value goes forward if the values that are nested in it do. -/
theorem forward_scanBare {value : Scan Value} (hvalue : value.Forward) : (scanBare value).Forward :=
  .orElse ((forward_scanWord _ _).orElse (forward_scanWord _ _)) <| (forward_scanWord _ _).orElse <|
    .orElse (forward_scanString.bind fun _ => .pure) <|
      .orElse ((forward_scanBracketed (forward_scanProperty hvalue) _ _).bind fun _ => .pure) <|
        forward_scanNumber.orElse ((forward_scanBracketed hvalue _ _).bind fun _ => .pure)

/-- The induction is on the depth; at depth zero nothing is read. -/
theorem forward_scanValue (depth : Nat) : (scanValue depth).Forward := by
  induction depth with
  | zero => exact .miss
  | succ depth ih => exact (forward_scanBare ih).trimmed

/-! ## The rules follow them

A character is encoded as a text of length one, a text as itself, and the parts of a number as a
tuple, in which what is not there is null. -/

section

variable {σ : Type} {host : Host σ Factory} {budget : Nat} {src : Source} {n : Nat}

theorem follows_char (htext : src.kind = .text) (c : Char) :
    (Grammar.char c).Follows host budget src n (fun u => .text [u]) (scanChar c.toNat) :=
  .terminal rfl (.char htext _)

/-- A word is mapped to its value, and the text that was matched is dropped. -/
theorem follows_word (htext : src.kind = .text) (s : String) (v : Value) :
    (word s v).Follows host budget src n id (scanWord s v) :=
  .unary rfl (.terminal rfl (.string htext _)) fun hp => hp.map (K := fun _ => .ok v) fun _ => rfl

/-- Joining the characters of a text gives the text, whatever the place that is counted from. -/
theorem joinFrom_units (place : Nat) (t : Text) :
    Value.joinFrom place (t.map fun u => .text [u]) = .ok t := by
  induction t generalizing place with
  | nil => rfl
  | cons u t ih =>
    rw [List.map_cons, Value.joinFrom, ih]
    rfl

/-- So the outputs of a loop over characters are joined to the text that was read. -/
theorem join_units (t : Text) :
    (Rule.Follows.encodeList (fun u : Nat => Value.text [u]) t).join = .ok (.text t) := by
  show (do return Value.text (← Value.joinFrom 0 (t.map fun u => .text [u]))) = _
  rw [joinFrom_units]
  rfl

/-- A loop over digits whose outputs are joined. The text that is left is what the budget has to
exceed. -/
theorem follows_digits (htext : src.kind = .text) (hbudget : n ≤ budget) :
    digits.Follows host budget src n .text scanDigits :=
  .unary rfl (.unary rfl (.terminal rfl (.char htext .digit)) fun hp => hp.many1 .unit hbudget)
    fun hp => hp.encode join_units

/-- A sign is one character that may be absent. -/
theorem follows_sign (htext : src.kind = .text) :
    (Grammar.optional (.char '-')).Follows host budget src n
      (fun o : Option Nat => o.elim .null fun u => .text [u]) (scanChar 45).optional :=
  .unary rfl (follows_char htext '-') fun hp => hp.optional

/-- A fraction may be absent as a whole; the point is dropped and the digits are the output. -/
theorem follows_fraction (htext : src.kind = .text) (hbudget : n ≤ budget) :
    (Grammar.optional (.keepRight (.char '.') digits)).Follows host budget src n
      (fun o : Option Text => o.elim .null .text) scanFraction.optional :=
  .unary rfl (.binary rfl (follows_char htext '.') (follows_digits htext hbudget) fun hp hq =>
    hp.keepRight hq)
    fun hp => hp.optional

/-- What the number rule makes of its three outputs, in terms of the parts that the scan finds. -/
theorem toNumber_parts (sign : Option Nat) (ds : Text) (fraction : Option Text) :
    toNumber (.tuple [sign.elim .null fun u => .text [u], .text ds, fraction.elim .null .text])
      = number (sign = some 45) ds (fraction.getD []) := by
  -- an attempt at the sign that failed is null, which equals no text
  have hsign : (sign.elim Value.null fun u => .text [u]).equal (.text [45]) =
      decide (sign = some 45) := by
    cases sign with
    | none => simp [Value.equal, Value.equalNumber, Value.integer?]
    | some u => simp [Value.equal]
  cases fraction with
  | none =>
    rw [← hsign]
    rfl
  | some fs =>
    rw [← hsign]
    rfl

/-- The three parts in a row, and the conversion that may be at fault. -/
theorem follows_number (htext : src.kind = .text) (hbudget : n ≤ budget) :
    numeral.Follows host budget src n id scanNumber := by
  refine .unary rfl
    (.serial (follows_sign htext) (follows_digits htext hbudget) (follows_fraction htext hbudget))
    fun hp => hp.map (K := fun x => number (x.1 = some 45) x.2.1 (x.2.2.getD [])) ?_
  rintro ⟨sign, ds, fraction⟩
  rw [toNumber_parts]
  cases number (sign = some 45) ds (fraction.getD []) <;> rfl

/-! ## Strings

The table of escapes is asked for the last entry of a key, and the notation for the first one. -/

/-- The meanings that the escape leaf looks up are those of the table that the scan uses. -/
theorem meaningOf_escapes (k : Nat) :
    Leaf.meaningOf? k (escapes.map fun e => (e.1.toNat, Value.text [e.2]))
      = (escapeMeanings.lookup k).map fun u => .text [u] := by
  have hkeys : escapes.map (fun e => (e.1.toNat, Value.text [e.2]))
      = escapeMeanings.map fun e => (e.1, .text [e.2]) := by rfl
  rw [hkeys]
  by_cases hk : k ∈ escapeMeanings.map Prod.fst
  · -- the keys are distinct, so the last entry of a key is its first
    have hcases : k = 34 ∨ k = 92 ∨ k = 47 ∨ k = 98 ∨ k = 102 ∨ k = 110 ∨ k = 114 ∨ k = 116 := by
      simpa [escapeMeanings] using hk
    rcases hcases with rfl | rfl | rfl | rfl | rfl | rfl | rfl | rfl <;> rfl
  · have hnone : escapeMeanings.lookup k = none := by
      rw [List.lookup_eq_none_iff]
      intro e he
      exact bne_iff_ne.mpr fun h => hk (List.mem_map.mpr ⟨e, he, h.symm⟩)
    rw [hnone, Leaf.meaningOf?, List.find?_eq_none.mpr]
    · rfl
    · intro e he
      obtain ⟨e', he', rfl⟩ := List.mem_map.mp (List.mem_reverse.mp he)
      exact fun h => hk (List.mem_map.mpr ⟨e', he', of_decide_eq_true h⟩)

/-- A backslash and a character that has a meaning behind it. -/
theorem follows_escape (htext : src.kind = .text) :
    simpleEscape.Follows host budget src n (fun u => .text [u]) scanEscape :=
  .terminal rfl (.escapedWith htext 92 meaningOf_escapes)

/-- Four hexadecimal digits behind a backslash and the letter; their value is the output. -/
theorem follows_code (htext : src.kind = .text) (hbudget : n ≤ budget) :
    unicodeEscape.Follows host budget src n (fun u => .text [u]) scanCode := by
  refine .unary rfl
    (.binary rfl (.terminal rfl (.string htext _)) (.unary rfl (.terminal rfl (.hex htext .both))
    fun hp => hp.exactly .unit hbudget 4) fun hp hq => hp.keepRight hq)
    fun hp => hp.map (K := fun ds => .ok (ds.foldl (fun n u => 16 * n + hexValue u) 0)) ?_
  intro ds
  rw [toCodePoint, join_units]
  rfl

/-- The three alternatives of the rule are those of the scan, in one order. -/
theorem follows_piece (htext : src.kind = .text) (hbudget : n ≤ budget) :
    (Grammar.choice [.leaf (.char (.noneOf [34, 92])), simpleEscape, unicodeEscape]).Follows
      host budget src n (fun u => .text [u]) scanPiece :=
  Grammar.FollowAll.choice (.cons (.terminal rfl (.char htext _))
    (.cons (follows_escape htext) (.last (follows_code htext hbudget))))

/-- The pieces between two quotes, joined to a text. -/
theorem follows_string (htext : src.kind = .text) (hbudget : n + 1 ≤ budget) :
    string.Follows host budget src (n + 1) .text scanString := by
  have hpieces :
      (Grammar.many0
      (.choice [.leaf (.char (.noneOf [34, 92])), simpleEscape, unicodeEscape])).Follows
      host budget src n (Rule.Follows.encodeList fun u => .text [u]) scanPiece.many :=
    .unary rfl (follows_piece htext (by omega)) fun hp => hp.many0 consumes_scanPiece (by omega)
  exact .unary rfl (.between (follows_char htext '"') .unit (follows_char htext '"') hpieces)
    fun hp => hp.encode join_units

/-! ## Arrays and objects -/

/-- A list with commas between brackets. The blanks that the rule trims are those that the scan
drops. -/
theorem follows_bracketed {α : Type} {enc : α → Value} {item : Grammar} {f : Scan α}
    (htext : src.kind = .text) (hbudget : n ≤ budget) (hitem : item.Follows host budget src n enc f)
    (opening closing : Char) :
    (bracketed opening closing item).Follows host budget src (n + 1) (Rule.Follows.encodeList enc)
      (scanBracketed opening.toNat closing.toNat f) := by
  have hcomma : (Grammar.trimmed (.char ',')).Follows host budget src n (fun u => .text [u])
      (scanChar 44).trimmed :=
    .unary rfl (follows_char htext ',') fun hp => hp.trimmed htext
  have hitems : (Grammar.sepBy (.trimmed (.char ',')) item).Follows host budget src n
      (Rule.Follows.encodeList enc) (Scan.sepBy (scanChar 44).trimmed f) :=
    .binary rfl hcomma hitem fun hp hq => hp.sepBy hq (consumes_scanChar 44).trimmed hbudget
  exact .between (follows_char htext opening) .unit
    (.unary rfl (follows_char htext closing) fun hp => hp.trimmed htext)
    (.unary rfl hitems fun hp => hp.trimmed htext)

variable {value' : Scan Value}

/-- A key, a colon and a value, of which the output keeps the first and the last. -/
theorem follows_property (htext : src.kind = .text) (hbudget : n + 1 ≤ budget)
    (hvalue : value.Follows host budget src n id value') :
    property.Follows host budget src n encodeProperty (scanProperty value') := by
  have hkey : (Grammar.trimmed string).Follows host budget src n .text scanString.trimmed :=
    .unary rfl ((follows_string htext hbudget).mono (Nat.le_succ n)) fun hp => hp.trimmed htext
  have hcolon : (Grammar.trimmed (.char ':')).Follows host budget src n (fun u => .text [u])
      (scanChar 58).trimmed :=
    .unary rfl (follows_char htext ':') fun hp => hp.trimmed htext
  exact .unary rfl (.serial hkey hcolon hvalue) fun hp =>
    hp.map (K := fun x => .ok (x.1, x.2.2)) fun _ => rfl

/-- The properties between braces, made into a table. -/
theorem follows_object (htext : src.kind = .text) (hbudget : n + 1 ≤ budget)
    (hvalue : value.Follows host budget src n id value') :
    object.Follows host budget src (n + 1) id (scanObject value') := by
  refine .unary rfl
    (follows_bracketed htext (by omega) (follows_property htext hbudget hvalue) '\x7b' '\x7d')
    fun hp => hp.map (K := fun ps => .ok (Value.table (dictionary ps))) fun ps => ?_
  rw [Rule.Follows.encodeList, toEntries_properties]
  rfl

theorem follows_array (htext : src.kind = .text) (hbudget : n ≤ budget)
    (hvalue : value.Follows host budget src n id value') :
    array.Follows host budget src (n + 1) id (scanArray value') :=
  (follows_bracketed htext hbudget hvalue '[' ']').decode (d := Value.list) fun vs => by
    rw [Rule.Follows.encodeList, List.map_id]
    rfl

/-! ## Values -/

/-- The alternatives of a value, with the rule for nested values as it is followed one level less
deep. -/
theorem follows_valueRule (htext : src.kind = .text) (hbudget : n + 1 ≤ budget)
    (hvalue : value.Follows host budget src n id value') :
    valueRule.Follows host budget src (n + 1) id (scanBare value').trimmed := by
  have hboolean : boolean.Follows host budget src (n + 1) id
      (.orElse (scanWord "true" (.bool true)) (scanWord "false" (.bool false))) :=
    .binary rfl (follows_word htext "true" _) (follows_word htext "false" _)
      fun hp hq => hp.orElse hq
  have hstring : string.Follows host budget src (n + 1) id (do return .text (← scanString)) :=
    (follows_string htext hbudget).decode fun _ => rfl
  -- the order is that of the rule, and the failure that counts is that of the array
  refine .unary rfl (Grammar.FollowAll.choice ?_) fun hp => hp.trimmed htext
  exact .cons hboolean (.cons (follows_word htext "null" _) (.cons hstring
    (.cons (follows_object htext hbudget hvalue) (.cons (follows_number htext hbudget)
      (.last (follows_array htext (by omega) hvalue))))))

end

/-- The rule for values, wherever it is referred to, is the one named rule. -/
theorem enter_value {run : Parser Factory → Rule Log} {p : Parser Factory}
    (hp : valueRule.check = .ok p) :
    (Host.direct rules run).enter (.named valueName) = run p := by
  funext s c
  have hproduce : (Factory.named valueName).produce rules = .ok valueRule := by
    rw [Factory.produce, rules, if_pos rfl]
  show (Run.lift ((Factory.named valueName).produce rules) >>= fun g => Run.lift g.check >>=
      fun p => run p s c) = _
  rw [hproduce]
  show (Run.lift valueRule.check >>= fun p => run p s c) = _
  rw [hp]
  rfl

/-- The parser of the rule for values follows the scan, by induction on the depth. -/
theorem follows_direct {src : Source} (htext : src.kind = .text) {p : Parser Factory}
    (hp : valueRule.check = .ok p) {depth budget : Nat} (hbudget : depth < budget) :
    Rule.Follows src depth id (p.direct rules budget) (scanValue depth) := by
  induction depth generalizing budget with
  | zero => exact ⟨fun r _ hr => absurd hr (Nat.not_lt_zero _), .miss⟩
  | succ depth ih =>
    obtain ⟨budget, rfl⟩ : ∃ b, budget = b + 1 := ⟨budget - 1, by omega⟩
    -- a value inside is entered with one unit of budget less, at a text that is shorter
    have hvalue : value.Follows (Host.direct rules (Parser.direct rules budget)) budget src depth id
        (scanValue depth) := by
      refine ⟨.deferred (.named valueName), rfl, ?_⟩
      rw [Parser.toRule, enter_value hp]
      exact ih (by omega)
    obtain ⟨q, hq, hrule⟩ := follows_valueRule htext (by omega) hvalue
    cases hp.symm.trans hq
    exact hrule

/-- The parser for values is a scan of any depth beyond the length of the text that is left, if the
budget allows for that depth. -/
theorem direct_value_eq_of_lt {src : Source} (htext : src.kind = .text) {p : Parser Factory}
    (hp : value.check = .ok p) {r : Text} (hr : r <:+ src.units.toList) {depth budget : Nat}
    (hdepth : r.length < depth) (hbudget : depth + 2 ≤ budget) (c : Value) :
    p.direct rules budget (src.leaving r) c = Run.lift
      ((scanValue depth r).map (Scanned.result src id c)) := by
  obtain ⟨budget, rfl⟩ : ∃ b, budget = b + 1 := ⟨budget - 1, by omega⟩
  obtain ⟨q, hq⟩ : ∃ q, valueRule.check = .ok q := ⟨_, rfl⟩
  cases hp
  rw [Parser.direct, Parser.toRule, enter_value hq]
  exact (follows_direct htext hq (by omega)).run hr hdepth c

/-- A result of the parser for values is one of the scan. -/
theorem direct_value_result_iff {src : Source} (htext : src.kind = .text) {p : Parser Factory}
    (hp : value.check = .ok p) {depth budget : Nat} (hbudget : depth + 2 ≤ budget) {r : Text}
    (hr : r <:+ src.units.toList) (hdepth : r.length < depth) {c : Value} {log log' : Log}
    {result : Result} :
    p.direct rules budget (src.leaving r) c log = (.ok result, log') ↔
      ∃ y, scanValue depth r = .ok y ∧ result = y.result src id c ∧ log' = log := by
  rw [direct_value_eq_of_lt htext hp hr hdepth hbudget c]
  cases scanValue depth r with
  | error fault => exact ⟨nofun, nofun⟩
  | ok y =>
    constructor
    · intro h
      cases h
      exact ⟨y, rfl, rfl, rfl⟩
    · rintro ⟨_, ⟨⟩, rfl, rfl⟩
      rfl

/-- **The parser for values is a scan.** With a budget beyond the length of the text that is left,
it does what the scan does, which knows of no budget. -/
theorem direct_value_eq {src : Source} (htext : src.kind = .text) {p : Parser Factory}
    (hp : value.check = .ok p) {r : Text} (hr : r <:+ src.units.toList) {budget : Nat}
    (hbudget : r.length + 3 ≤ budget) (c : Value) :
    p.direct rules budget (src.leaving r) c
      = Run.lift ((scanValue (r.length + 1) r).map (Scanned.result src id c)) :=
  direct_value_eq_of_lt htext hp hr (Nat.lt_succ_self _) hbudget c

end Descent.Json
