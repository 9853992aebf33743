import Descent.Proofs.Json.Scans

/-!
# Descent — numbers and strings, exactly

What the scans of numbers and strings find is what their notation spells.

* **`finds_scanString`** — a string is found wherever one is spelled, whatever follows it.
* **`finds_scanNumber` / `finds_number_literal`** — a number is found where one is spelled that does
  not continue. A whole number must be short enough to be read, which is the one place where a scan
  is at fault.
-/

namespace Descent.Json

variable {r r' : Text}

@[simp]
theorem finds_scanChar {u x : Nat} : (scanChar u).Finds r x r' ↔ r = u :: r' ∧ x = u := by
  rw [scanChar, Scan.finds_unit, CharClass.mem, decide_eq_true_iff]
  constructor
  · rintro ⟨h, rfl⟩
    exact ⟨h, rfl⟩
  · rintro ⟨h, rfl⟩
    exact ⟨h, rfl⟩

theorem misses_scanChar {u : Nat} : (scanChar u).Misses r ↔ r.head? ≠ some u := by
  rw [scanChar, Scan.misses_unit]
  cases r with
  | nil => simp
  | cons v r => simp [CharClass.mem]

/-! ## Digits

Digits are read to the end of the run, so what follows them is not a digit. -/

/-- No digit is ahead at the end of the text, or in front of anything else. -/
theorem digitAhead_eq_false : digitAhead r = false ↔ ∀ u ∈ r.head?, Text.isDigit u = false := by
  cases r with
  | nil => simp [digitAhead]
  | cons u r => simp [digitAhead]

/-- The scan finds all digits that there are, and at least one. -/
theorem finds_scanDigits {ds : Text} :
    scanDigits.Finds r ds r' ↔ Digits ds ∧ r = ds ++ r' ∧ digitAhead r' = false := by
  rw [scanDigits, Scan.finds_many1 .unit, digitAhead_eq_false]
  simp only [Scan.repeats_unit, Scan.finds_unit]
  constructor
  · rintro ⟨u, _, us, ⟨rfl, hu⟩, ⟨rfl, hall, hstop⟩, rfl⟩
    exact ⟨⟨List.cons_ne_nil u us, List.forall_mem_cons.mpr ⟨hu, hall⟩⟩, rfl, hstop⟩
  · rintro ⟨⟨hne, hall⟩, rfl, hstop⟩
    cases ds with
    | nil => exact absurd rfl hne
    | cons u us =>
      obtain ⟨hu, hall⟩ := List.forall_mem_cons.mp hall
      exact ⟨u, us ++ r', us, ⟨rfl, hu⟩, ⟨rfl, hall, hstop⟩, rfl⟩

theorem misses_scanDigits : scanDigits.Misses r ↔ digitAhead r = false := by
  rw [scanDigits, Scan.misses_many1, Scan.misses_unit, digitAhead_eq_false]

/-! ## Numbers

A fraction that is not there has been tried, and its attempt failed: that is what is known of the
text behind a whole number. The value is computed at the end, and of a whole number only if it is
not too long. -/

/-- A fraction is a point and all the digits behind it. -/
theorem finds_scanFraction {fs : Text} :
    scanFraction.Finds r fs r' ↔ Digits fs ∧ r = 46 :: fs ++ r' ∧ digitAhead r' = false := by
  rw [scanFraction, Scan.finds_bind]
  simp only [finds_scanChar, finds_scanDigits]
  constructor
  · rintro ⟨_, _, ⟨rfl, -⟩, hfs, rfl, hstop⟩
    exact ⟨hfs, rfl, hstop⟩
  · rintro ⟨hfs, rfl, hstop⟩
    exact ⟨46, fs ++ r', ⟨rfl, rfl⟩, hfs, rfl, hstop⟩

/-- A point without a digit behind it is no fraction, and is left where it is. -/
theorem misses_scanFraction : scanFraction.Misses r ↔ fractionAhead r = false := by
  rw [scanFraction, Scan.misses_bind, misses_scanChar]
  simp only [finds_scanChar, misses_scanDigits]
  constructor
  · rintro (h | ⟨_, r₁, ⟨rfl, -⟩, h⟩)
    · rw [fractionAhead.eq_def]
      split
      · exact absurd rfl h
      · rfl
    · exact h
  · intro h
    by_cases hhead : r.head? = some 46
    · obtain ⟨r₁, rfl⟩ := List.head?_eq_some_iff.mp hhead
      exact .inr ⟨46, r₁, ⟨rfl, rfl⟩, h⟩
    · exact .inl hhead

/-- The parts of a number, each where the one before it ends. -/
theorem finds_scanNumeral {sign : Option Nat} {ds : Text} {fraction : Option Text} :
    scanNumeral.Finds r (sign, ds, fraction) r' ↔
      ∃ r₁ r₂, (scanChar 45).optional.Finds r sign r₁ ∧ scanDigits.Finds r₁ ds r₂ ∧
        scanFraction.optional.Finds r₂ fraction r' := by
  simp only [scanNumeral, Scan.finds_bind, Scan.finds_pure]
  constructor
  · rintro ⟨sign', r₁, hsign, ds', r₂, hds, fs', _, hfs, heq, rfl⟩
    cases heq
    exact ⟨r₁, r₂, hsign, hds, hfs⟩
  · rintro ⟨r₁, r₂, hsign, hds, hfs⟩
    exact ⟨sign, r₁, hsign, ds, r₂, hds, fraction, r', hfs, rfl, rfl⟩

/-- The sign is read where it is written. -/
theorem finds_sign {sign : Option Nat} :
    (scanChar 45).optional.Finds r sign r' ↔
      ∃ negative, r = minus negative ++ r' ∧ (sign = if negative then some 45 else none) ∧
        (negative = false → r'.head? ≠ some 45) := by
  rw [Scan.finds_optional, misses_scanChar]
  simp only [finds_scanChar]
  constructor
  · rintro (⟨_, ⟨rfl, rfl⟩, rfl⟩ | ⟨h, rfl, rfl⟩)
    · exact ⟨true, rfl, rfl, nofun⟩
    · exact ⟨false, rfl, rfl, fun _ => h⟩
  · rintro ⟨negative, rfl, rfl, h⟩
    cases negative with
    | true => exact .inl ⟨45, ⟨rfl, rfl⟩, rfl⟩
    | false => exact .inr ⟨h rfl, rfl, rfl⟩

/-- The value of a whole number that is short enough. -/
theorem number_whole (negative : Bool) {ds : Text} {v : Value} :
    number negative ds [] = .ok v ↔
      ds.length ≤ Decimal.maxDigits ∧
        v = .int (if negative then -(Decimal.value ds : Int) else Decimal.value ds) := by
  show (do return Value.int (← Decimal.signed negative ds)) = Except.ok v ↔ _
  rw [Decimal.signed]
  by_cases hlen : Decimal.maxDigits < ds.length
  · rw [if_pos hlen]
    exact ⟨nofun, fun h => absurd h.1 (Nat.not_le_of_lt hlen)⟩
  · rw [if_neg hlen]
    constructor
    · intro h
      cases h
      exact ⟨Nat.le_of_not_lt hlen, rfl⟩
    · rintro ⟨-, rfl⟩
      rfl

/-- With a fraction, all digits count as one integer over a power of ten. -/
theorem number_fraction (negative : Bool) (ds : Text) {fs : Text} (hfs : fs ≠ []) :
    number negative ds fs
      = .ok (.float (.ofFraction negative (Decimal.value (ds ++ fs)) (Nat.pow 10 fs.length))) := by
  rw [number, if_neg (by simpa using hfs)]

/-- What is found as a number is spelled as one and not continued. -/
theorem finds_scanNumber {v : Value} (h : scanNumber.Finds r v r') :
    ∃ t, NumberLiteral t v ∧ r = t ++ r' ∧ continues v r' = false := by
  obtain ⟨⟨sign, ds, fraction⟩, r₃, hparts, hnumber⟩ := Scan.finds_bind.mp h
  obtain ⟨r₁, r₂, hsign, hdigits, hfraction⟩ := finds_scanNumeral.mp hparts
  obtain ⟨negative, rfl, rfl, -⟩ := finds_sign.mp hsign
  obtain ⟨hds, rfl, hstop⟩ := finds_scanDigits.mp hdigits
  obtain ⟨hvalue, rfl⟩ := Scan.finds_lift.mp hnumber
  have hnegative : decide ((if negative = true then some 45 else none) = some 45) = negative := by
    cases negative <;> rfl
  rw [hnegative] at hvalue
  -- with a fraction the number ends behind it, and without one where the attempt at a fraction
  -- failed
  rcases Scan.finds_optional.mp hfraction with ⟨fs, hfs, rfl⟩ | ⟨hmisses, rfl, rfl⟩
  · obtain ⟨hdigits', rfl, hstop'⟩ := finds_scanFraction.mp hfs
    rw [Option.getD_some, number_fraction negative ds hdigits'.nonempty] at hvalue
    cases hvalue
    exact ⟨_, .fraction negative hds hdigits', by simp, hstop'⟩
  · obtain ⟨-, rfl⟩ := (number_whole negative).mp hvalue
    refine ⟨_, .whole negative hds, by simp, ?_⟩
    rw [continues, hstop, misses_scanFraction.mp hmisses]
    rfl

/-- A run of digits does not begin with a sign. -/
theorem Digits.head_ne_minus {ds : Text} (h : Digits ds) (r : Text) :
    (ds ++ r).head? ≠ some 45 := by
  cases ds with
  | nil => exact absurd rfl h.nonempty
  | cons u us =>
    have hu := h.all u List.mem_cons_self
    rintro ⟨⟩
    exact absurd hu (by decide)

/-- A number that is spelled, is not continued and is short enough is found. -/
theorem finds_numeral {negative : Bool} {ds r₁ : Text} {fraction : Option Text} {v : Value}
    (hds : Digits ds) (hstop : digitAhead r₁ = false)
    (hfraction : scanFraction.optional.Finds r₁ fraction r')
    (hvalue : number negative ds (fraction.getD []) = .ok v) :
    scanNumber.Finds (minus negative ++ (ds ++ r₁)) v r' := by
  have hsign := finds_sign.mpr ⟨negative, rfl, rfl, fun _ => hds.head_ne_minus r₁⟩
  have hdigits := finds_scanDigits.mpr ⟨hds, rfl, hstop⟩
  refine Scan.finds_bind.mpr ⟨_, r', finds_scanNumeral.mpr ⟨_, _, hsign, hdigits, hfraction⟩, ?_⟩
  refine Scan.finds_lift.mpr ⟨?_, rfl⟩
  cases negative <;> exact hvalue

/-- Where the text is that of a whole number, it has few enough digits to be read. -/
def ShortInteger (t : Text) (v : Value) : Prop :=
  ∀ ⦃i negative ds⦄, v = .int i → t = minus negative ++ ds → Digits ds →
    ds.length ≤ Decimal.maxDigits

/-- The bound on digits concerns integers only. -/
theorem ShortInteger.of_ne_int {t : Text} {v : Value} (h : ∀ i, v ≠ .int i) : ShortInteger t v :=
  fun i _ _ hv => absurd hv (h i)

/-- If no run of digits in the text is too long, then that of this number is not either. -/
theorem ShortRuns.shortInteger {t : Text} (h : ShortRuns t) (v : Value) : ShortInteger t v := by
  rintro _ negative ds - rfl hds
  exact h ds (List.suffix_append _ ds).isInfix hds.all

/-- A spelled number is found, if nothing behind it would belong to it. -/
theorem finds_number_literal {t : Text} {v : Value} (h : NumberLiteral t v)
    (hstop : continues v r' = false) (hshort : ShortInteger t v) :
    scanNumber.Finds (t ++ r') v r' := by
  cases h with
  | @whole negative ds hds =>
    obtain ⟨hdigit, hpoint⟩ : digitAhead r' = false ∧ fractionAhead r' = false := by
      simpa [continues] using hstop
    have hlen : ds.length ≤ Decimal.maxDigits := hshort rfl rfl hds
    rw [List.append_assoc]
    exact finds_numeral hds hdigit
      (Scan.finds_optional.mpr (.inr ⟨misses_scanFraction.mpr hpoint, rfl, rfl⟩))
      ((number_whole negative).mpr ⟨hlen, rfl⟩)
  | @fraction negative ds fs hds hfs =>
    have hfraction := finds_scanFraction.mpr ⟨hfs, rfl, hstop⟩
    rw [List.append_assoc, List.append_assoc]
    exact finds_numeral hds rfl (Scan.finds_optional.mpr (.inl ⟨fs, hfraction, rfl⟩))
      (number_fraction negative ds hfs.nonempty)

/-! ## Strings

The alternatives for a piece exclude each other: a raw character is no backslash, and the letter `u`
has no meaning of its own behind one. So there is no condition on what comes after a piece, and none
on what comes after a string. -/

/-- The members of the class of hexadecimal digits, as ranges of code points. -/
theorem mem_hex_iff {u : Nat} :
    HexCase.both.mem u = true ↔ (48 ≤ u ∧ u ≤ 57 ∨ 65 ≤ u ∧ u ≤ 70) ∨ 97 ≤ u ∧ u ≤ 102 := by
  simp only [HexCase.mem, Text.isDigit, HexCase.isUpperLetter, HexCase.isLowerLetter,
    Bool.or_eq_true, Bool.and_eq_true, decide_eq_true_iff]

theorem HexDigit.mem {u d : Nat} (h : HexDigit u d) : HexCase.both.mem u = true := by
  rw [mem_hex_iff]
  cases h <;> omega

/-- The value that the rule computes is that of the digit. -/
theorem HexDigit.hexValue_eq {u d : Nat} (h : HexDigit u d) : hexValue u = d := by
  rw [hexValue]
  cases h with
  | decimal h => rw [if_pos (by omega)]; omega
  | upper h => rw [if_neg (by omega), if_pos (by omega)]; omega
  | lower h => rw [if_neg (by omega), if_neg (by omega)]; omega

/-- The class has no other members. -/
theorem hexDigit_of_mem {u : Nat} (h : HexCase.both.mem u = true) : HexDigit u (hexValue u) := by
  obtain ⟨d, hd⟩ : ∃ d, HexDigit u d := by
    rcases mem_hex_iff.mp h with (⟨hlow, hhigh⟩ | ⟨hlow, hhigh⟩) | ⟨hlow, hhigh⟩
    · obtain ⟨d, rfl⟩ := Nat.exists_eq_add_of_le hlow
      exact ⟨d, .decimal (by omega)⟩
    · obtain ⟨d, rfl⟩ := Nat.exists_eq_add_of_le hlow
      exact ⟨10 + d, .upper (by omega)⟩
    · obtain ⟨d, rfl⟩ := Nat.exists_eq_add_of_le hlow
      exact ⟨10 + d, .lower (by omega)⟩
  rw [hd.hexValue_eq]
  exact hd

theorem length_eq_four {us : List Nat} (h : us.length = 4) : ∃ a b c d, us = [a, b, c, d] := by
  match us, h with
  | [a, b, c, d], _ => exact ⟨a, b, c, d, rfl⟩

/-- A code escape is found where four hexadecimal digits follow, and it stands for the number that
they write. -/
theorem finds_scanCode {u : Nat} :
    scanCode.Finds r u r' ↔
      ∃ a b c d w x y z, HexDigit a w ∧ HexDigit b x ∧ HexDigit c y ∧ HexDigit d z ∧
        r = [92, 117, a, b, c, d] ++ r' ∧ u = 4096 * w + 256 * x + 16 * y + z := by
  simp only [scanCode, scanHexDigits, scanHex, Scan.finds_bind, Scan.finds_literal,
    Scan.finds_exactly_unit, Scan.finds_pure]
  constructor
  · rintro ⟨ds, _, ⟨_, _, rfl, rfl, hlen, hall⟩, rfl, rfl⟩
    -- the loop has found four units, and each of them is a digit
    obtain ⟨a, b, c, d, rfl⟩ := length_eq_four hlen
    have hdigit (v : Nat) (hv : v ∈ [a, b, c, d]) : HexDigit v (hexValue v) :=
      hexDigit_of_mem (hall v hv)
    refine ⟨a, b, c, d, _, _, _, _, hdigit a (by simp), hdigit b (by simp), hdigit c (by simp),
      hdigit d (by simp), rfl, ?_⟩
    simp only [List.foldl_cons, List.foldl_nil]
    omega
  · rintro ⟨a, b, c, d, w, x, y, z, ha, hb, hc, hd, rfl, rfl⟩
    refine ⟨[a, b, c, d], r', ⟨(), _, rfl, rfl, rfl, ?_⟩, ?_, rfl⟩
    · intro v hv
      simp only [List.mem_cons, List.not_mem_nil, or_false] at hv
      rcases hv with rfl | rfl | rfl | rfl
      · exact ha.mem
      · exact hb.mem
      · exact hc.mem
      · exact hd.mem
    · simp only [List.foldl_cons, List.foldl_nil, ha.hexValue_eq, hb.hexValue_eq, hc.hexValue_eq,
        hd.hexValue_eq]
      omega

/-- No character has two meanings in the table, so looking it up is the same as its entry being
there. -/
theorem lookup_escapeMeanings {k u : Nat} :
    escapeMeanings.lookup k = some u ↔ (k, u) ∈ escapeMeanings := by
  constructor
  · intro h
    obtain ⟨before, after, heq, -⟩ := List.lookup_eq_some_iff.mp h
    rw [heq]
    exact List.mem_append_right before List.mem_cons_self
  · intro h
    simp only [escapeMeanings, List.mem_cons, Prod.mk.injEq, List.not_mem_nil, or_false] at h
    rcases h with ⟨rfl, rfl⟩ | ⟨rfl, rfl⟩ | ⟨rfl, rfl⟩ | ⟨rfl, rfl⟩ | ⟨rfl, rfl⟩ | ⟨rfl, rfl⟩ |
      ⟨rfl, rfl⟩ | ⟨rfl, rfl⟩
      <;> rfl

/-- A character stands for itself unless it is a quote or a backslash. -/
theorem mem_plain {u : Nat} : (CharClass.noneOf [34, 92]).mem u = true ↔ u ≠ 34 ∧ u ≠ 92 := by
  simp [CharClass.mem]

/-- A piece is found wherever one is spelled: the first character, or the one behind the backslash,
tells which. -/
theorem finds_scanPiece {u : Nat} : scanPiece.Finds r u r' ↔ ∃ t, Piece t u ∧ r = t ++ r' := by
  simp only [scanPiece, scanEscape, Scan.finds_orElse, Scan.finds_unit, Scan.finds_entry, mem_plain,
    finds_scanCode, lookup_escapeMeanings]
  constructor
  · rintro (⟨rfl, hquote, hbackslash⟩ | ⟨-,
      ⟨k, rfl, hk⟩ | ⟨-, a, b, c, d, w, x, y, z, ha, hb, hc, hd, rfl, rfl⟩⟩)
    · exact ⟨[u], .raw hquote hbackslash, rfl⟩
    · exact ⟨[92, k], .escape hk, rfl⟩
    · exact ⟨_, .code ha hb hc hd, rfl⟩
  · rintro ⟨t, h, rfl⟩
    cases h with
    | raw hquote hbackslash => exact .inl ⟨rfl, hquote, hbackslash⟩
    | escape hk => exact .inr ⟨Scan.misses_unit.mpr (by simp [CharClass.mem]), .inl ⟨_, rfl, hk⟩⟩
    | code ha hb hc hd =>
      -- the escapes with a meaning come first, and must fail at the letter u
      refine .inr ⟨Scan.misses_unit.mpr (by simp [CharClass.mem]),
        .inr ⟨?_, _, _, _, _, _, _, _, _, ha, hb, hc, hd, rfl, rfl⟩⟩
      refine Scan.misses_entry.mpr fun k r₁ heq => ?_
      cases heq
      rfl

/-- No piece starts with the quote. -/
theorem misses_scanPiece_quote : scanPiece.Misses (34 :: r) := by
  refine Scan.misses_orElse.mpr
    ⟨Scan.misses_unit.mpr (by simp [CharClass.mem]), Scan.misses_orElse.mpr ⟨?_, ?_⟩⟩
  · exact Scan.misses_entry.mpr fun _ _ h => nomatch h
  · refine Scan.misses_bind.mpr
      (.inl (Scan.misses_bind.mpr (.inl (Scan.misses_literal.mpr fun h => ?_))))
    obtain ⟨_, h⟩ := h
    cases h

/-- What a loop over pieces has read is a text of pieces. -/
theorem pieces_of_repeats {us : Text} (h : scanPiece.Repeats r us r') :
    ∃ t, Pieces t us ∧ r = t ++ r' := by
  induction h with
  | stop _ => exact ⟨[], .nil, rfl⟩
  | step h _ ih =>
    obtain ⟨t, hpiece, rfl⟩ := finds_scanPiece.mp h
    obtain ⟨t', hpieces, rfl⟩ := ih
    exact ⟨t ++ t', .cons hpiece hpieces, (List.append_assoc t t' _).symm⟩

/-- A text of pieces is read piece by piece as far as the quote behind it. -/
theorem repeats_of_pieces {t us : Text} (h : Pieces t us) :
    scanPiece.Repeats (t ++ 34 :: r') us (34 :: r') := by
  induction h with
  | nil => exact .stop misses_scanPiece_quote
  | @cons t t' u us hpiece _ ih =>
    rw [List.append_assoc]
    exact .step (finds_scanPiece.mpr ⟨t, hpiece, rfl⟩) ih

/-- **Strings, exactly.** A string is found wherever one is spelled, whatever follows. -/
theorem finds_scanString {us : Text} :
    scanString.Finds r us r' ↔ ∃ t, StringLiteral t us ∧ r = t ++ r' := by
  simp only [scanString, Scan.finds_bind, finds_scanChar, Scan.finds_many consumes_scanPiece,
    Scan.finds_pure]
  constructor
  · rintro ⟨_, _, ⟨rfl, rfl⟩, us, _, hpieces, _, _, ⟨rfl, rfl⟩, rfl, rfl⟩
    obtain ⟨t, ht, rfl⟩ := pieces_of_repeats hpieces
    exact ⟨_, .intro ht, by simp⟩
  · rintro ⟨_, @⟨t, _, ht⟩, rfl⟩
    exact ⟨34, t ++ 34 :: r', ⟨by simp, rfl⟩, us, 34 :: r', repeats_of_pieces ht, 34, r',
      ⟨rfl, rfl⟩, rfl, rfl⟩

end Descent.Json
