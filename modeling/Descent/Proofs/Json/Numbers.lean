import Descent.Proofs.Json.Exact
import Descent.Proofs.Json.Termination

/-!
# Descent — reading numbers, and the one fault of JSON parsing

A number is read by its sign, its digits and its fraction, and only then is its value computed; that
a whole number has too many digits is noticed in the end. Nothing else in the grammar can be at
fault.

* **`isNegative`, `integerDigits`, `hasFraction`, `fractionDigits`** — the parts of the number at
  the front of a text.
* **`numberText`, `numberValue`** — the number that they make: the longest one that the text starts
  with (`isPrefix_numberText`), and what it denotes.
* **`scanNumber_eq`, `scanNumber_missed`** — what the scan makes of the parts.
* **`Scan.Sure`** — a scan that is at fault nowhere in a text. In a text without overlong runs of
  digits the scan for values is one, by induction on the depth (`sure_scanValue`).
* **`number_run_cases`** — how the parsers for numbers and for values end.
-/

namespace Descent

namespace Json

/-! ## The number at the front of a text -/

/-- Whether the text begins with a minus. -/
def isNegative (r : Text) : Bool :=
  r.head? = some 45

/-- The text behind a minus, if there is one. -/
def unsigned (r : Text) : Text :=
  r.drop (minus (isNegative r)).length

/-- All digits that stand behind an optional minus. -/
def integerDigits (r : Text) : Text :=
  (unsigned r).takeWhile Text.isDigit

/-- The text behind the integer digits. -/
def behindInteger (r : Text) : Text :=
  (unsigned r).dropWhile Text.isDigit

/-- Whether the digits are followed by a point with a digit behind it. -/
def hasFraction (r : Text) : Bool :=
  fractionAhead (behindInteger r)

/-- All digits that stand behind the point, if there is a fraction. -/
def fractionDigits (r : Text) : Text :=
  if hasFraction r then (behindInteger r).tail.takeWhile Text.isDigit else []

/-- The text behind the whole number. -/
def behindNumber (r : Text) : Text :=
  if hasFraction r then (behindInteger r).tail.dropWhile Text.isDigit else behindInteger r

/-- The sign, the digits and the fraction. -/
def numberText (r : Text) : Text :=
  minus (isNegative r) ++ integerDigits r ++ if hasFraction r then 46 :: fractionDigits r else []

/-- The integer, or the double nearest to the decimal fraction. -/
def numberValue (r : Text) : Value :=
  if hasFraction r then
    .float (.ofFraction (isNegative r) (Decimal.value (integerDigits r ++ fractionDigits r))
      (Nat.pow 10 (fractionDigits r).length))
  else .int (if isNegative r then -(Decimal.value (integerDigits r) : Int)
    else Decimal.value (integerDigits r))

variable {r : Text}

/-- The text is its sign and what stands behind it. -/
theorem minus_append_unsigned (r : Text) : minus (isNegative r) ++ unsigned r = r := by
  cases r with
  | nil => rfl
  | cons u r =>
    by_cases hu : u = 45
    · subst hu
      rfl
    · have hsign : isNegative (u :: r) = false := decide_eq_false (by simpa using hu)
      rw [unsigned, hsign]
      rfl

/-- Behind the sign, the text is its digits and what stands behind them. -/
theorem integerDigits_append_behindInteger (r : Text) :
    integerDigits r ++ behindInteger r = unsigned r :=
  List.takeWhile_append_dropWhile

/-- The digits in front of a text are a run of digits, if there are any. -/
theorem digits_takeWhile {t : Text} (h : t.takeWhile Text.isDigit ≠ []) :
    Digits (t.takeWhile Text.isDigit) :=
  ⟨h, fun _ hu => List.mem_takeWhile_imp hu⟩

theorem digitAhead_dropWhile (t : Text) : digitAhead (t.dropWhile Text.isDigit) = false := by
  have hnot := List.head?_dropWhile_not Text.isDigit t
  cases h : t.dropWhile Text.isDigit with
  | nil => rfl
  | cons u t' =>
    rw [h] at hnot
    simpa [digitAhead] using hnot

theorem takeWhile_eq_nil_iff {t : Text} : t.takeWhile Text.isDigit = [] ↔ digitAhead t = false := by
  cases t with
  | nil => exact ⟨fun _ => rfl, fun _ => rfl⟩
  | cons u t => simp [digitAhead, List.takeWhile_cons]

/-- A fraction is a point and at least one digit. -/
theorem behindInteger_of_hasFraction (h : hasFraction r = true) :
    behindInteger r = 46 :: (fractionDigits r ++ behindNumber r) ∧ Digits (fractionDigits r) ∧
      digitAhead (behindNumber r) = false := by
  rw [fractionDigits, behindNumber, if_pos h, if_pos h]
  rw [hasFraction, fractionAhead.eq_def] at h
  split at h
  · next r₁ heq =>
    have hne : r₁.takeWhile Text.isDigit ≠ [] := fun hnil => by
      rw [takeWhile_eq_nil_iff.mp hnil] at h
      cases h
    rw [heq, List.tail_cons, List.takeWhile_append_dropWhile]
    exact ⟨rfl, digits_takeWhile hne, digitAhead_dropWhile r₁⟩
  · cases h

/-- The text is the number at its front and what stands behind it. -/
theorem numberText_append_behindNumber (r : Text) : numberText r ++ behindNumber r = r := by
  have hdigits := integerDigits_append_behindInteger r
  have hsign := minus_append_unsigned r
  rw [← hdigits] at hsign
  rw [numberText]
  by_cases h : hasFraction r = true
  · obtain ⟨hbehind, -, -⟩ := behindInteger_of_hasFraction h
    rw [if_pos h, List.append_assoc, List.append_assoc, List.cons_append, ← hbehind]
    exact hsign
  · rw [if_neg h, behindNumber, if_neg h, List.append_nil, List.append_assoc]
    exact hsign

/-- The number at the front of a text is a number, unless no digit is there. -/
theorem numberLiteral_numberText (h : integerDigits r ≠ []) :
    NumberLiteral (numberText r) (numberValue r) := by
  rw [numberText, numberValue]
  by_cases hfraction : hasFraction r = true
  · obtain ⟨-, hfs, -⟩ := behindInteger_of_hasFraction hfraction
    rw [if_pos hfraction, if_pos hfraction]
    exact .fraction (isNegative r) (digits_takeWhile h) hfs
  · rw [if_neg hfraction, if_neg hfraction, List.append_nil]
    exact .whole (isNegative r) (digits_takeWhile h)

/-! ## It is the longest

A number that the text starts with has the sign that is there, since a digit is no minus. Its digits
are among those that are there, and if it goes on behind them, it is by the fraction that is there.
-/

/-- Sign and digits are told apart from what is written: behind a minus, and in front of a digit. -/
theorem unsigned_of_digits {negative : Bool} {ds rest : Text} (hds : Digits ds)
    (hr : r = minus negative ++ (ds ++ rest)) :
    isNegative r = negative ∧ unsigned r = ds ++ rest := by
  have hsign : isNegative r = negative := by
    cases negative with
    | true =>
      rw [hr]
      rfl
    | false =>
      rw [hr]
      exact decide_eq_false (hds.head_ne_minus rest)
  refine ⟨hsign, ?_⟩
  rw [unsigned, hsign, hr, List.drop_left]

/-- No number that is spelled at the front of the text reaches further. -/
theorem isPrefix_numberText {t : Text} {v : Value} (h : NumberLiteral t v) (ht : t <+: r) :
    t <+: numberText r := by
  obtain ⟨rest, rfl⟩ := ht
  cases h with
  | @whole negative ds hds =>
    rw [List.append_assoc]
    obtain ⟨hsign, hunsigned⟩ := unsigned_of_digits hds rfl
    have hdigits : integerDigits (minus negative ++ (ds ++ rest)) =
        ds ++ rest.takeWhile Text.isDigit := by
      rw [integerDigits, hunsigned, List.takeWhile_append_of_pos hds.all]
    rw [numberText, hsign, hdigits, ← List.append_assoc, List.append_assoc]
    exact List.prefix_append _ _
  | @fraction negative ds fs hds hfs =>
    have htext : minus negative ++ ds ++ 46 :: fs ++ rest =
        minus negative ++ (ds ++ 46 :: (fs ++ rest)) := by simp
    rw [htext]
    obtain ⟨hsign, hunsigned⟩ := unsigned_of_digits hds rfl
    -- the point ends the digits, and a digit of the fraction follows it
    have hdigits : integerDigits (minus negative ++ (ds ++ 46 :: (fs ++ rest))) = ds := by
      rw [integerDigits, hunsigned, List.takeWhile_append_of_pos hds.all,
        List.takeWhile_cons_of_neg (by decide), List.append_nil]
    have hbehind : behindInteger (minus negative ++ (ds ++ 46 :: (fs ++ rest))) =
        46 :: (fs ++ rest) := by
      rw [behindInteger, hunsigned, List.dropWhile_append_of_pos hds.all,
        List.dropWhile_cons_of_neg (by decide)]
    have hfraction : hasFraction (minus negative ++ (ds ++ 46 :: (fs ++ rest))) = true := by
      rw [hasFraction, hbehind]
      cases fs with
      | nil => exact absurd rfl hfs.nonempty
      | cons u fs => exact hfs.all u List.mem_cons_self
    rw [numberText, hsign, hdigits, if_pos hfraction, fractionDigits, if_pos hfraction, hbehind,
      List.tail_cons, List.takeWhile_append_of_pos hfs.all, ← List.cons_append, ← List.append_assoc]
    exact List.prefix_append _ _

/-! ## The scan -/

/-- The scan of the sign finds the minus that is there, or nothing. -/
theorem finds_sign_ahead (r : Text) :
    (scanChar 45).optional.Finds r (if isNegative r then some 45 else none) (unsigned r) := by
  refine finds_sign.mpr ⟨isNegative r, (minus_append_unsigned r).symm, rfl, fun hsign => ?_⟩
  have hsame := minus_append_unsigned r
  rw [hsign] at hsame
  rw [show unsigned r = r from hsame]
  exact of_decide_eq_false hsign

/-- The scan of the fraction finds the one that is there, or nothing. -/
theorem finds_fraction_ahead (r : Text) :
    scanFraction.optional.Finds (behindInteger r)
      (if hasFraction r then some (fractionDigits r) else none) (behindNumber r) := by
  by_cases h : hasFraction r = true
  · obtain ⟨hbehind, hfs, hstop⟩ := behindInteger_of_hasFraction h
    rw [if_pos h]
    exact Scan.finds_optional.mpr (.inl ⟨_, finds_scanFraction.mpr ⟨hfs, hbehind, hstop⟩, rfl⟩)
  · rw [if_neg h, behindNumber, if_neg h]
    exact Scan.finds_optional.mpr
      (.inr ⟨misses_scanFraction.mpr (Bool.eq_false_iff.mpr h), rfl, rfl⟩)

/-- Where there are digits, everything is read and then the value is computed. -/
theorem scanNumber_eq (h : integerDigits r ≠ []) :
    scanNumber r = (number (isNegative r) (integerDigits r) (fractionDigits r)).map
      (.found · (behindNumber r)) := by
  have hdigits : scanDigits.Finds (unsigned r) (integerDigits r) (behindInteger r) :=
    finds_scanDigits.mpr
      ⟨digits_takeWhile h, (integerDigits_append_behindInteger r).symm, digitAhead_dropWhile _⟩
  -- each part of the number is found where the one before it ends
  have hparts := finds_scanNumeral.mpr ⟨_, _, finds_sign_ahead r, hdigits, finds_fraction_ahead r⟩
  have hsign : decide ((if isNegative r = true then some 45 else none) = some 45) =
      isNegative r := by
    cases isNegative r <;> rfl
  have hfraction : (if hasFraction r = true then some (fractionDigits r) else none).getD [] =
      fractionDigits r := by
    by_cases hf : hasFraction r = true
    · rw [if_pos hf, Option.getD_some]
    · rw [if_neg hf, fractionDigits, if_neg hf, Option.getD_none]
  rw [scanNumber, Scan.bind_apply, hparts]
  show Scan.lift (number _ (integerDigits r) (Option.getD _ [])) (behindNumber r) = _
  rw [hsign, hfraction]
  rfl

/-- Without a digit ahead, the miss is that of a digit. -/
theorem scanDigits_missed {t : Text} (h : digitAhead t = false) :
    scanDigits t = .ok (.missed (.tag .digit) t) := by
  cases t with
  | nil => rfl
  | cons u t =>
    rw [scanDigits, Scan.many1, Scan.bind_apply, Scan.unit,
      if_neg (by rw [show Text.isDigit u = false from h]; decide)]

/-- Where there is no digit, the failure is behind the minus. -/
theorem scanNumber_missed (h : integerDigits r = []) :
    scanNumber r = .ok (.missed (.tag .digit) (unsigned r)) := by
  have hdigits := scanDigits_missed (takeWhile_eq_nil_iff.mp h)
  have hnumeral : scanNumeral r = .ok (.missed (.tag .digit) (unsigned r)) := by
    rw [scanNumeral, Scan.bind_apply, finds_sign_ahead r]
    simp only [Scan.bind_apply, hdigits]
  rw [scanNumber, Scan.bind_apply, hnumeral]

/-- The value of the parts. That a whole number is too long is the only fault. -/
theorem number_parts (r : Text) :
    number (isNegative r) (integerDigits r) (fractionDigits r) =
      if hasFraction r = false ∧ Decimal.maxDigits < (integerDigits r).length then
        .error (.tooManyDigits (integerDigits r).length)
      else .ok (numberValue r) := by
  by_cases hf : hasFraction r = true
  · obtain ⟨-, hfs, -⟩ := behindInteger_of_hasFraction hf
    rw [number_fraction _ _ hfs.nonempty, if_neg (fun h => by rw [hf] at h; cases h.1),
      numberValue, if_pos hf]
  · have hff : hasFraction r = false := Bool.eq_false_iff.mpr hf
    rw [fractionDigits, if_neg hf, numberValue, if_neg hf]
    by_cases hlen : Decimal.maxDigits < (integerDigits r).length
    · rw [if_pos ⟨hff, hlen⟩]
      show (do return Value.int (← Decimal.signed _ _)) = _
      rw [Decimal.signed, if_pos hlen]
      rfl
    · rw [if_neg (fun h => hlen h.2)]
      exact (number_whole _).mpr ⟨Nat.le_of_not_lt hlen, rfl⟩

end Json

/-! ## Scans without a fault -/

/-- The scan is at fault nowhere in the text. -/
def Scan.Sure {α : Type} (whole : Text) (f : Scan α) : Prop :=
  ∀ ⦃r⦄, r <:+ whole → ∃ y, f r = .ok y

namespace Scan.Sure

variable {α β : Type} {whole : Text} {f g : Scan α}

theorem pure {x : α} : Sure whole (pure x : Scan α) :=
  fun _ _ => ⟨_, rfl⟩

theorem miss {error : Value} : Sure whole (Scan.miss error : Scan α) :=
  fun _ _ => ⟨_, rfl⟩

/-- What follows runs where the first scan has ended, further on in the text. -/
theorem bind {k : α → Scan β} (hf : Sure whole f) (hforward : f.Forward)
    (hk : ∀ x, Sure whole (k x)) :
    Sure whole (f >>= k) := by
  intro r hr
  obtain ⟨y, hy⟩ := hf hr
  rw [Scan.bind_apply, hy]
  cases y with
  | missed e r' => exact ⟨_, rfl⟩
  | found x r' => exact hk x ((hforward hy).trans hr)

/-- The alternative begins at the same text. -/
theorem orElse (hf : Sure whole f) (hg : Sure whole g) : Sure whole (f.orElse g) := by
  intro r hr
  obtain ⟨y, hy⟩ := hf hr
  rw [Scan.orElse, hy]
  cases y with
  | missed e r' => exact hg hr
  | found x r' => exact ⟨_, rfl⟩

/-- Behind the blanks there is still an end of the text. -/
theorem trimmed (hf : Sure whole f) : Sure whole f.trimmed :=
  fun _ hr => hf ((List.dropWhile_suffix _).trans hr)

theorem unit {mem : Nat → Bool} {error : Option Nat → Value} :
    Sure whole (Scan.unit mem error) := by
  intro r _
  cases r with
  | nil => exact ⟨_, rfl⟩
  | cons u r =>
    rw [Scan.unit]
    split
    · exact ⟨_, rfl⟩
    · exact ⟨_, rfl⟩

theorem literal {t : Text} {error : Value} : Sure whole (Scan.literal t error) := by
  intro r _
  rw [Scan.literal]
  split
  · exact ⟨_, rfl⟩
  · exact ⟨_, rfl⟩

theorem entry {control : Nat} {meaning : Nat → Option α} {error : Value} :
    Sure whole (Scan.entry control meaning error) := by
  intro r _
  rw [Scan.entry.eq_def]
  split
  · split
    · exact ⟨_, rfl⟩
    · exact ⟨_, rfl⟩
  · exact ⟨_, rfl⟩

/-- Each repetition begins where the one before it ended. -/
theorem sweep (hf : Sure whole f) (hforward : f.Forward) (most : Nat) :
    Sure whole (f.sweep most) := by
  induction most with
  | zero => exact .pure
  | succ most ih =>
    exact .orElse (hf.bind hforward fun _ => ih.bind (hforward.sweep most) fun _ => .pure) .pure

/-- Whatever the bound of the loop is, no repetition is at fault. -/
theorem many (hf : Sure whole f) (hforward : f.Forward) : Sure whole f.many :=
  fun _ hr => hf.sweep hforward _ hr

/-- To fall short is to miss, and no fault. -/
theorem exactly {n : Nat} {error : List α → Value} (hf : Sure whole f) (hforward : f.Forward) :
    Sure whole (f.exactly n error) := by
  refine (hf.sweep hforward n).bind (hforward.sweep n) fun xs => ?_
  by_cases hlen : n ≤ xs.length
  · rw [if_pos hlen]
    exact .pure
  · rw [if_neg hlen]
    exact .miss

/-- A list goes on behind each separator, further on in the text. -/
theorem sepBy {separator : Scan β} (hs : Sure whole separator) (hf : Sure whole f)
    (hsforward : separator.Forward) (hforward : f.Forward) :
    Sure whole (Scan.sepBy separator f) := by
  have hnext : Sure whole (do let _ ← separator; f : Scan α) := hs.bind hsforward fun _ => hf
  have hnextForward : (do let _ ← separator; f : Scan α).Forward := hsforward.bind fun _ => hforward
  exact .orElse (hf.bind hforward fun _ => (hnext.many hnextForward).bind hnextForward.many
    fun _ => .pure) .pure

end Scan.Sure

namespace Json

/-! ## Values without a fault

Nothing but a number can be at fault, and a number only by its digits, which are a run of the text.
-/

variable {whole : Text}

/-- The integer digits stand somewhere in the text. -/
theorem isInfix_integerDigits (r : Text) : integerDigits r <:+: r := by
  have hparts := minus_append_unsigned r
  rw [← integerDigits_append_behindInteger r, ← List.append_assoc] at hparts
  exact ⟨_, _, hparts⟩

/-- A number is at fault only where it has too many digits, and no run in this text has. -/
theorem sure_scanNumber (hshort : ShortRuns whole) : scanNumber.Sure whole := by
  intro r hr
  by_cases hdigits : integerDigits r = []
  · exact ⟨_, scanNumber_missed hdigits⟩
  · have hlen : (integerDigits r).length ≤ Decimal.maxDigits :=
      hshort _ ((isInfix_integerDigits r).trans hr.isInfix) fun _ hu => List.mem_takeWhile_imp hu
    rw [scanNumber_eq hdigits, number_parts, if_neg fun h => Nat.not_lt.mpr hlen h.2]
    exact ⟨_, rfl⟩

theorem sure_scanString : scanString.Sure whole := by
  have hcode : scanCode.Sure whole := by
    have hdigits : scanHexDigits.Sure whole :=
      Scan.Sure.literal.bind .literal fun _ => Scan.Sure.unit.exactly .unit
    exact hdigits.bind (Scan.Forward.literal.bind fun _ => Scan.Forward.unit.exactly) fun _ => .pure
  have hpiece : scanPiece.Sure whole := .orElse .unit (.orElse .entry hcode)
  exact Scan.Sure.unit.bind .unit fun _ =>
    (hpiece.many forward_scanPiece).bind forward_scanPiece.many fun _ =>
    Scan.Sure.unit.bind .unit fun _ => .pure

/-- A list between brackets is at fault only where an item is. -/
theorem sure_scanBracketed {α : Type} {item : Scan α} (hitem : item.Sure whole)
    (hforward : item.Forward) (opening closing : Nat) :
    (scanBracketed opening closing item).Sure whole := by
  have hitems : (Scan.sepBy (scanChar 44).trimmed item).trimmed.Sure whole :=
    .trimmed (Scan.Sure.sepBy Scan.Sure.unit.trimmed hitem (forward_scanChar 44).trimmed hforward)
  have hitemsForward : (Scan.sepBy (scanChar 44).trimmed item).trimmed.Forward :=
    ((forward_scanChar 44).trimmed.sepBy hforward).trimmed
  exact Scan.Sure.unit.bind (forward_scanChar opening) fun _ => hitems.bind hitemsForward fun _ =>
    Scan.Sure.unit.trimmed.bind (forward_scanChar closing).trimmed fun _ => .pure

/-- A property is at fault only where its value is. -/
theorem sure_scanProperty {f : Scan Value} (hf : f.Sure whole) (hforward : f.Forward) :
    (scanProperty f).Sure whole := by
  have hentry : (scanEntry f).Sure whole :=
    sure_scanString.trimmed.bind forward_scanString.trimmed fun _ =>
      Scan.Sure.unit.trimmed.bind (forward_scanChar 58).trimmed fun _ =>
        hf.bind hforward fun _ => .pure
  have hentryForward : (scanEntry f).Forward :=
    forward_scanString.trimmed.bind fun _ => (forward_scanChar 58).trimmed.bind fun _ =>
      hforward.bind fun _ => .pure
  exact hentry.bind hentryForward fun _ => .pure

/-- A value is at fault only where a number is, its own or one that is nested in it. -/
theorem sure_scanBare {f : Scan Value} (hshort : ShortRuns whole) (hf : f.Sure whole)
    (hforward : f.Forward) :
    (scanBare f).Sure whole := by
  have hword (s : String) (v : Value) : (scanWord s v).Sure whole :=
    Scan.Sure.literal.bind .literal fun _ => .pure
  have hstring : (do return .text (← scanString) : Scan Value).Sure whole :=
    sure_scanString.bind forward_scanString fun _ => .pure
  have hobject : (scanObject f).Sure whole :=
    (sure_scanBracketed (sure_scanProperty hf hforward) (forward_scanProperty hforward) _ _).bind
      (forward_scanBracketed (forward_scanProperty hforward) _ _) fun _ => .pure
  have harray : (scanArray f).Sure whole :=
    (sure_scanBracketed hf hforward _ _).bind (forward_scanBracketed hforward _ _) fun _ => .pure
  exact .orElse (.orElse (hword _ _) (hword _ _)) (.orElse (hword _ _) (.orElse hstring
    (.orElse hobject (.orElse (sure_scanNumber hshort) harray))))

/-- The induction is on the depth. -/
theorem sure_scanValue (hshort : ShortRuns whole) (depth : Nat) : (scanValue depth).Sure whole := by
  induction depth with
  | zero => exact .miss
  | succ depth ih => exact (sure_scanBare hshort ih (forward_scanValue depth)).trimmed

/-! ## The parsers -/

/-- How the parser for numbers ends. -/
def numberEnd (s : Stream) (c : Value) : Except Fault Result :=
  if integerDigits s.rest = [] then
    .ok (.err (s.advance (minus (isNegative s.rest)).length) (.tag .digit) c)
  else if hasFraction s.rest = false ∧ Decimal.maxDigits < (integerDigits s.rest).length then
    .error (.tooManyDigits (integerDigits s.rest).length)
  else .ok (.ok (s.advance (numberText s.rest).length) (numberValue s.rest) c)

/-- Inside its source, the parser for numbers ends as the text at the stream says. -/
theorem number_run_inBounds {p : Parser Factory} (hp : numeral.check = .ok p) {s : Stream}
    (htext : s.isText = true) (hs : s.InBounds) {budget : Nat}
    (hbudget : s.rest.length + 2 ≤ budget) (c : Value) :
    p.direct rules budget s c = Run.lift (numberEnd s c) := by
  obtain ⟨budget, rfl⟩ : ∃ b, budget = b + 1 := ⟨budget - 1, by omega⟩
  rw [(follows_number (of_decide_eq_true htext) (by omega)).direct hs hp c, numberEnd]
  by_cases hdigits : integerDigits s.rest = []
  · rw [if_pos hdigits, scanNumber_missed hdigits,
      hs.advance_eq_leaving (minus_append_unsigned s.rest).symm]
    rfl
  · rw [if_neg hdigits, scanNumber_eq hdigits, number_parts,
      hs.advance_eq_leaving (numberText_append_behindNumber s.rest).symm]
    split
    · rfl
    · rfl

/-- Past the end, no character matches. -/
theorem fails_char_past {s : Stream} (hs : s.source.size ≤ s.offset) (cls : CharClass) :
    Rule.Fails s (.tag cls.tag) (Leaf.char cls).toRule := by
  intro c
  have hpeek : s.peek 0 = .ok none := by
    rw [Stream.peek, if_pos (by omega)]
  rw [Leaf.toRule, Leaf.run, Leaf.matchUnit, hpeek]
  rfl

theorem rest_eq_nil_of_past {s : Stream} (hs : s.source.size ≤ s.offset) : s.rest = [] := by
  have hsize := s.source.length_units
  rw [Stream.rest, s.source.sliceFrom_eq (by omega)]
  exact List.drop_eq_nil_of_le (by omega)

/-- The run of the parser for numbers, also past the end. -/
theorem number_run_eq {p : Parser Factory} (hp : numeral.check = .ok p) {s : Stream}
    (htext : s.isText = true) (hs : 0 ≤ s.offset) {budget : Nat}
    (hbudget : s.rest.length + 2 ≤ budget) (c : Value) :
    p.direct rules budget s c = Run.lift (numberEnd s c) := by
  by_cases hend : s.offset ≤ s.source.size
  · exact number_run_inBounds hp htext ⟨hs, hend⟩ hbudget c
  · obtain ⟨budget, rfl⟩ : ∃ b, budget = b + 1 := ⟨budget - 1, by omega⟩
    have hpast : s.source.size ≤ s.offset := by omega
    have hstay : numberEnd s c = .ok (.err s (.tag .digit) c) := by
      rw [numberEnd, rest_eq_nil_of_past hpast]
      show Except.ok (Result.err ⟨s.source, s.offset + 0⟩ _ c) = _
      rw [Int.add_zero]
    have hchar := fails_char_past hpast
    rw [hstay]
    cases hp
    exact ((hchar (.exactly 45)).serial_optional
      (((hchar .digit).many1 budget).map Value.join) _).map _ c

/-- An integer of too many digits is the only fault. Where a fraction follows, the digits make a
double, and there may be as many as there are. -/
theorem numberEnd_error_iff {s : Stream} {c : Value} {fault : Fault} :
    numberEnd s c = .error fault ↔
      (Decimal.maxDigits < (integerDigits s.rest).length ∧ hasFraction s.rest = false) ∧
        fault = .tooManyDigits (integerDigits s.rest).length := by
  rw [numberEnd]
  by_cases hdigits : integerDigits s.rest = []
  · -- no digits are not too many
    rw [if_pos hdigits, hdigits]
    exact ⟨nofun, fun h => absurd h.1.1 (Nat.not_lt_zero _)⟩
  · rw [if_neg hdigits]
    split
    · next hlong =>
      constructor
      · rintro ⟨⟩
        exact ⟨⟨hlong.2, hlong.1⟩, rfl⟩
      · rintro ⟨-, rfl⟩
        rfl
    · next hshort => exact ⟨nofun, fun h => absurd ⟨h.1.2, h.1.1⟩ hshort⟩

/-- The parser for values is at fault nowhere in a text without overlong runs of digits. -/
theorem value_run_sure {p : Parser Factory} (hp : value.check = .ok p) {s : Stream}
    (htext : s.isText = true) (hs : s.InBounds) (hshort : ShortRuns s.rest) {budget : Nat}
    (hbudget : s.rest.length + 3 ≤ budget) (c : Value) (log : Log) :
    ∃ result, p.direct rules budget s c log = (.ok result, log) := by
  have hrun := direct_value_eq (of_decide_eq_true htext) hp hs.rest_suffix hbudget c
  obtain ⟨y, hy⟩ := sure_scanValue hshort (s.rest.length + 1) (List.suffix_refl s.rest)
  rw [hs.leaving_rest, hy] at hrun
  rw [hrun]
  exact ⟨_, rfl⟩

/-- **When JSON parsing is at fault.** At any place of a text, or past its end, the parser for
numbers is at fault if and only if the digits behind an optional minus are more than
`Decimal.maxDigits` and no fraction follows them, and the fault is that there are too many.
Otherwise it fails behind the minus if there is no digit, and else its output is the integer or the
double that is written, and it has consumed the longest number that the text starts with. So the
parser for values is at fault nowhere in a text without overlong runs of digits. -/
theorem number_run_cases {p q : Parser Factory} (hp : numeral.check = .ok p)
    (hq : value.check = .ok q) {s : Stream} (htext : s.isText = true) (hs : 0 ≤ s.offset)
    {budget : Nat} (hbudget : s.rest.length + 3 ≤ budget) (c : Value) (log : Log) :
    ((∃ stop log', p.direct rules budget s c log = (.error stop, log')) ↔
      Decimal.maxDigits < (integerDigits s.rest).length ∧ hasFraction s.rest = false) ∧
    (∀ stop log', p.direct rules budget s c log = (.error stop, log') →
      log' = log ∧ ∃ fault, stop = .fault fault ∧
        fault = .tooManyDigits (integerDigits s.rest).length ∧ fault.category = .value) ∧
    (integerDigits s.rest = [] →
      p.direct rules budget s c log
        = (.ok (.err (s.advance (minus (isNegative s.rest)).length) (.tag .digit) c), log)) ∧
    (integerDigits s.rest ≠ [] → (integerDigits s.rest).length ≤ Decimal.maxDigits →
      hasFraction s.rest = false →
      p.direct rules budget s c log = (.ok (.ok (s.advance (numberText s.rest).length)
        (.int (if isNegative s.rest then -(Decimal.value (integerDigits s.rest) : Int)
          else Decimal.value (integerDigits s.rest))) c), log)) ∧
    (integerDigits s.rest ≠ [] → hasFraction s.rest = true →
      p.direct rules budget s c log = (.ok (.ok (s.advance (numberText s.rest).length)
        (.float (.ofFraction (isNegative s.rest)
          (Decimal.value (integerDigits s.rest ++ fractionDigits s.rest))
          (Nat.pow 10 (fractionDigits s.rest).length))) c), log)) ∧
    (integerDigits s.rest ≠ [] → NumberLiteral (numberText s.rest) (numberValue s.rest) ∧
      numberText s.rest <+: s.rest ∧
      ∀ t v, NumberLiteral t v → t <+: s.rest → t <+: numberText s.rest) ∧
    (s.InBounds → ShortRuns s.rest →
      ∃ result, q.direct rules budget s c log = (.ok result, log)) := by
  -- the end is known for every such stream, so each clause reads off one case of it
  have hrun : p.direct rules budget s c log = Run.lift (numberEnd s c) log := by
    rw [number_run_eq hp htext hs (by omega) c]
  have hfault {stop : Stop} {log' : Log} (h : p.direct rules budget s c log = (.error stop, log')) :
      log' = log ∧ ∃ fault, stop = .fault fault ∧ numberEnd s c = .error fault := by
    rw [hrun] at h
    cases hend : numberEnd s c with
    | ok result =>
      rw [hend] at h
      cases h
    | error fault =>
      rw [hend] at h
      cases h
      exact ⟨rfl, fault, rfl, rfl⟩
  refine ⟨⟨?_, fun h => ?_⟩, fun stop log' h => ?_, fun hdigits => ?_,
    fun hdigits hlen hwhole => ?_, fun hdigits hfraction => ?_, fun hdigits => ?_,
    fun hin hshort => value_run_sure hq htext hin hshort hbudget c log⟩
  · -- the only fault is that of an integer with too many digits
    rintro ⟨stop, log', h⟩
    obtain ⟨-, fault, -, hend⟩ := hfault h
    exact (numberEnd_error_iff.mp hend).1
  · refine ⟨.fault (.tooManyDigits (integerDigits s.rest).length), log, ?_⟩
    rw [hrun, numberEnd_error_iff.mpr ⟨h, rfl⟩]
    rfl
  · obtain ⟨hlog, fault, hstop, hend⟩ := hfault h
    obtain ⟨-, rfl⟩ := numberEnd_error_iff.mp hend
    exact ⟨hlog, _, hstop, rfl, rfl⟩
  · rw [hrun, numberEnd, if_pos hdigits]
    rfl
  · rw [hrun, numberEnd, if_neg hdigits, if_neg fun h => Nat.not_lt.mpr hlen h.2, numberValue,
      if_neg (by rw [hwhole]; exact Bool.false_ne_true)]
    rfl
  · rw [hrun, numberEnd, if_neg hdigits,
      if_neg fun h => Bool.false_ne_true (h.1.symm.trans hfraction), numberValue, if_pos hfraction]
    rfl
  · exact ⟨numberLiteral_numberText hdigits, ⟨_, numberText_append_behindNumber s.rest⟩,
      fun _ _ ht hprefix => isPrefix_numberText ht hprefix⟩

/-- In `[-07.x]`, a number with a leading zero is read up to the point, which no digit follows, and
the array fails. -/
theorem number_run_cases_point :
    let src : Source := ⟨0, .text, #[91, 45, 48, 55, 46, 120, 93]⟩
    (∃ p, numeral.check = .ok p ∧ p.direct rules 10 ⟨src, 1⟩ .null #[] =
      (.ok (.ok ⟨src, 4⟩ (.int (-7)) .null), #[])) ∧
    ∃ q, value.check = .ok q ∧ ∃ result, q.direct rules 10 ⟨src, 0⟩ .null #[] =
      (.ok result, #[]) := by
  intro src
  have hshort : ShortRuns (Stream.mk src 0).rest :=
    fun ds hds _ => Nat.le_trans hds.length_le (by decide)
  have hnumber :=
    number_run_cases rfl rfl (s := ⟨src, 1⟩) rfl (by decide) (by decide : _ ≤ 10) .null #[]
  have hvalue :=
    number_run_cases rfl rfl (s := ⟨src, 0⟩) rfl (by decide) (by decide : _ ≤ 10) .null #[]
  have hplace : (Stream.mk src 1).advance (numberText (Stream.mk src 1).rest).length =
      ⟨src, 4⟩ := by decide
  have hseven :
      (if isNegative (Stream.mk src 1).rest then
      -(Decimal.value (integerDigits (Stream.mk src 1).rest) : Int)
      else Decimal.value (integerDigits (Stream.mk src 1).rest)) = -7 := by decide
  refine ⟨⟨_, rfl, ?_⟩, _, rfl, ?_⟩
  · have hrun := hnumber.2.2.2.1 (by decide) (by decide) (by decide)
    rwa [hplace, hseven] at hrun
  · exact hvalue.2.2.2.2.2.2 ⟨by decide, by decide⟩ hshort

/-- Before the start of a text, looking at a character is a fault of its own, although no digit is
there. -/
theorem number_run_before_start :
    let src : Source := ⟨0, .text, #[]⟩
    integerDigits (Stream.mk src (-1)).rest = [] ∧
      ∃ p, numeral.check = .ok p ∧
        p.direct rules 3 ⟨src, -1⟩ .null #[] = (.error (.fault (.indexOutside .text)), #[]) :=
  ⟨rfl, _, rfl, rfl⟩

end Json

end Descent
