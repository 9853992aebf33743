import Descent.Proofs.Json.Literals
import Mathlib.Data.List.DropRight

/-!
# Descent — the JSON parser accepts exactly its notation

Both directions go through arrays and objects in the same way: what is true of a scan for items is
true of the scan for items between brackets, and the scan for values is nested one level less deep
inside.

* **`Sound`** — what a scan finds is spelled.
* **`Complete`** — what is spelled is found, if what follows does not continue a number.
* **`value_run_iff`** — the parser for values succeeds exactly where a value is spelled, and with
  that value.

A choice takes the first alternative that does not miss, so for the second direction the
alternatives before the right one have to miss: the first character tells.
-/

namespace Descent.Json

variable {α : Type} {r r' : Text}

/-! ## Blanks

Blanks may stand before almost everything, and are skipped as far as they go. None of them continues
a number, nor does a comma or a closing bracket; so inside brackets every number ends where its
digits do. -/

/-- The blanks in front of a text are those that are skipped. -/
theorem exists_blanks_append (r : Text) : ∃ w, Blanks w ∧ r = w ++ r.dropWhile Text.isBlank :=
  ⟨r.takeWhile Text.isBlank, fun _ hu => List.mem_takeWhile_imp hu,
    List.takeWhile_append_dropWhile.symm⟩

/-- Written blanks are skipped whole, and the skipping goes on behind them. -/
theorem dropWhile_blanks {w : Text} (hw : Blanks w) (r : Text) :
    (w ++ r).dropWhile Text.isBlank = r.dropWhile Text.isBlank :=
  List.dropWhile_append_of_pos hw

/-- Blanks in front of something that is none are exactly those that are skipped. -/
theorem dropWhile_blanks_cons {w : Text} (hw : Blanks w) {u : Nat} (hu : Text.isBlank u = false)
    (r : Text) :
    (w ++ u :: r).dropWhile Text.isBlank = u :: r := by
  rw [dropWhile_blanks hw, List.dropWhile_cons_of_neg (by rw [hu]; exact Bool.false_ne_true)]

/-- No blank is a digit or a decimal point. -/
theorem blank_not_continuing {u : Nat} (h : Text.isBlank u = true) :
    Text.isDigit u = false ∧ u ≠ 46 := by
  have hall : ∀ u ∈ Text.blanks, Text.isDigit u = false ∧ u ≠ 46 := by decide
  exact hall u (List.contains_iff_mem.mp h)

/-- A text that continues no number. -/
structure Fresh (r : Text) : Prop where
  digit : digitAhead r = false
  fraction : fractionAhead r = false

/-- In front of a fresh text every value ends where it is spelled to end, numbers included. -/
theorem Fresh.continues_eq_false (h : Fresh r) (v : Value) : continues v r = false := by
  cases v <;> simp [continues, h.digit, h.fraction]

/-- Only the first character matters. -/
theorem Fresh.cons {u : Nat} (hdigit : Text.isDigit u = false) (hpoint : u ≠ 46) (r : Text) :
    Fresh (u :: r) := by
  refine ⟨hdigit, ?_⟩
  rw [fractionAhead.eq_def]
  split
  · next h => exact absurd (List.cons.inj h).1 hpoint
  · rfl

/-- Blanks hide nothing that continues a number, as they do not continue one themselves. -/
theorem Fresh.blanks {w : Text} (hw : Blanks w) (h : Fresh r) : Fresh (w ++ r) := by
  cases w with
  | nil => exact h
  | cons u w =>
    obtain ⟨hdigit, hpoint⟩ := blank_not_continuing (hw u List.mem_cons_self)
    exact .cons hdigit hpoint (w ++ r)

/-- A character behind blanks: the blanks are skipped as far as they go, so the character must not
be one. -/
theorem finds_trimmed_char {u x : Nat} (hu : Text.isBlank u = false) :
    (scanChar u).trimmed.Finds r x r' ↔ x = u ∧ ∃ w, Blanks w ∧ r = w ++ u :: r' := by
  rw [Scan.finds_trimmed, finds_scanChar]
  constructor
  · rintro ⟨hr, rfl⟩
    obtain ⟨w, hw, heq⟩ := exists_blanks_append r
    exact ⟨rfl, w, hw, by rw [← hr]; exact heq⟩
  · rintro ⟨rfl, w, hw, rfl⟩
    exact ⟨dropWhile_blanks_cons hw hu r', rfl⟩

/-- Another character behind the blanks is missed. -/
theorem misses_trimmed_char {u v : Nat} (hv : Text.isBlank v = false) (huv : v ≠ u) {w : Text}
    (hw : Blanks w) :
    (scanChar u).trimmed.Misses (w ++ v :: r) := by
  rw [Scan.misses_trimmed, dropWhile_blanks_cons hw hv, misses_scanChar]
  simpa using huv

/-! ## Items

The scan for items is a parameter, and so is the relation that says how an item is spelled. -/

section

/-- What the scan finds is spelled. -/
def Sound (P : Text → α → Prop) (f : Scan α) : Prop :=
  ∀ ⦃r x r'⦄, f.Finds r x r' → ∃ t, P t x ∧ r = t ++ r'

/-- What is spelled in a last part of the text, in front of something that continues no number, is
found. -/
def Complete (whole : Text) (P : Text → α → Prop) (f : Scan α) : Prop :=
  ∀ ⦃t x r'⦄, P t x → Fresh r' → t ++ r' <:+ whole → f.Finds (t ++ r') x r'

variable {P : Text → α → Prop} {f : Scan α} {opening closing : Nat}

/-- A comma behind blanks, and an item. -/
def scanNext (item : Scan α) : Scan α := do
  let _ ← (scanChar 44).trimmed
  item

theorem finds_scanNext {x : α} :
    (scanNext f).Finds r x r' ↔ ∃ w r₁, Blanks w ∧ r = w ++ 44 :: r₁ ∧ f.Finds r₁ x r' := by
  rw [scanNext, Scan.finds_bind]
  simp only [finds_trimmed_char (show Text.isBlank 44 = false by decide)]
  constructor
  · rintro ⟨_, r₁, ⟨-, w, hw, rfl⟩, hx⟩
    exact ⟨w, r₁, hw, rfl, hx⟩
  · rintro ⟨w, r₁, hw, rfl, hx⟩
    exact ⟨44, r₁, ⟨rfl, w, hw, rfl⟩, hx⟩

/-- The items of a loop, behind one that is given. -/
theorem items_of_repeats (hf : Sound P f) {xs : List α}
    (h : (scanNext f).Repeats r xs r') {t₀ : Text} {x₀ : α} (h₀ : P t₀ x₀) :
    ∃ t, Items P (t₀ ++ t) (x₀ :: xs) ∧ r = t ++ r' := by
  induction h generalizing t₀ x₀ with
  | stop _ => exact ⟨[], by rw [List.append_nil]; exact .one h₀, rfl⟩
  | step h _ ih =>
    obtain ⟨w, r₁, hw, rfl, hx⟩ := finds_scanNext.mp h
    obtain ⟨t₁, hspelled, rfl⟩ := hf hx
    obtain ⟨t₂, hitems, rfl⟩ := ih hspelled
    refine ⟨w ++ 44 :: (t₁ ++ t₂), ?_, by simp⟩
    rw [← List.append_assoc]
    exact .more h₀ hw hitems

/-- Items between brackets are spelled if each item is. -/
theorem Sound.bracketed (hf : Sound P f) (hforward : f.Forward)
    (hclosing : Text.isBlank closing = false) :
    Sound (Bracketed P opening closing) (scanBracketed opening closing f) := by
  intro r xs r' h
  simp only [scanBracketed, Scan.finds_bind, finds_scanChar, finds_trimmed_char hclosing,
    Scan.finds_pure] at h
  obtain ⟨_, r₁, ⟨rfl, rfl⟩, ys, r₂, hitems, _, r₃, ⟨-, w', hw', rfl⟩, rfl, rfl⟩ := h
  obtain ⟨w, hw, hr₁⟩ := exists_blanks_append r₁
  rw [Scan.finds_trimmed, Scan.finds_sepBy (consumes_scanChar 44).trimmed hforward] at hitems
  rw [hr₁]
  rcases hitems with ⟨x, r₄, ys, hx, hys, rfl⟩ | ⟨-, rfl, heq⟩
  · -- a first item, and behind it as many commas with items as there are
    obtain ⟨t, hspelled, heq⟩ := hf hx
    obtain ⟨t', hitems, rfl⟩ := items_of_repeats hf hys hspelled
    refine ⟨_, .items hw hitems hw', ?_⟩
    rw [heq]
    simp
  · refine ⟨_, .empty hw hw', ?_⟩
    rw [← heq]
    simp

/-- Items that are spelled are found one after the other, up to where no comma follows. -/
theorem repeats_of_items {whole : Text} (hf : Complete whole P f) (hfresh : Fresh r')
    (hstop : (scanNext f).Misses r') {t : Text} {xs : List α} (h : Items P t xs)
    (hwhole : t ++ r' <:+ whole) :
    ∃ x r₁ ys, f.Finds (t ++ r') x r₁ ∧ (scanNext f).Repeats r₁ ys r' ∧ xs = x :: ys := by
  induction h with
  | @one t x hx => exact ⟨x, r', [], hf hx hfresh hwhole, .stop hstop, rfl⟩
  | @more t w t' x xs hx hw _ ih =>
    -- the item is read up to the blanks before the comma, since a comma continues no number
    have htext : t ++ w ++ 44 :: t' ++ r' = t ++ (w ++ 44 :: (t' ++ r')) := by simp
    rw [htext] at hwhole ⊢
    have hinner : t' ++ r' <:+ whole :=
      ((List.suffix_cons 44 _).trans (List.suffix_append w _)).trans
        ((List.suffix_append t _).trans hwhole)
    obtain ⟨x', r₁, ys, hx', hys, rfl⟩ := ih hinner
    have hcomma : Fresh (w ++ 44 :: (t' ++ r')) := (Fresh.cons (by decide) (by decide) _).blanks hw
    exact ⟨x, _, x' :: ys, hf hx hcomma hwhole,
      .step (finds_scanNext.mpr ⟨w, _, hw, rfl, hx'⟩) hys, rfl⟩

/-- What has to be known of a closing bracket: it is no blank, no comma and no part of a number. -/
structure Closes (closing : Nat) : Prop where
  blank : Text.isBlank closing = false
  comma : closing ≠ 44
  digit : Text.isDigit closing = false
  point : closing ≠ 46

/-- Leading blanks make no difference to what the scan finds. -/
def SkipsBlanks (f : Scan α) : Prop :=
  ∀ ⦃r x r'⦄, f.Finds r x r' → f.Finds (r.dropWhile Text.isBlank) x r'

/-- A trimmed scan skips the blanks itself, so skipping them before changes nothing. -/
theorem SkipsBlanks.trimmed (f : Scan α) : SkipsBlanks f.trimmed := by
  intro r x r' h
  rw [Scan.finds_trimmed, List.dropWhile_idempotent]
  exact h

/-- Where the first scan skips blanks, what follows it begins at the same place. -/
theorem SkipsBlanks.bind {β : Type} {k : α → Scan β} (hf : SkipsBlanks f) :
    SkipsBlanks (f >>= k) := by
  intro r x r' h
  obtain ⟨y, r₁, hy, hx⟩ := Scan.finds_bind.mp h
  exact Scan.finds_bind.mpr ⟨y, r₁, hf hy, hx⟩

/-- Items between brackets are found, if the scan for items is complete behind the opening one. -/
theorem finds_bracketed (hclosing : Closes closing) (hforward : f.Forward) (hblanks : SkipsBlanks f)
    (hmisses : ∀ r, f.Misses (closing :: r)) {t : Text} {xs : List α}
    (h : Bracketed P opening closing t xs)
    (hf : ∀ inner, t ++ r' = opening :: inner → Complete inner P f) :
    (scanBracketed opening closing f).Finds (t ++ r') xs r' := by
  have hstop {w : Text} (hw : Blanks w) : (scanNext f).Misses (w ++ closing :: r') :=
    Scan.misses_bind.mpr (.inl (misses_trimmed_char hclosing.blank hclosing.comma hw))
  simp only [scanBracketed, Scan.finds_bind, finds_scanChar, finds_trimmed_char hclosing.blank,
    Scan.finds_pure, Scan.finds_trimmed, Scan.finds_sepBy (consumes_scanChar 44).trimmed hforward]
  cases h with
  | @empty w w' hw hw' =>
    -- the blanks are all skipped before the first item is tried, which then fails at the closing
    -- bracket
    have htext : opening :: w ++ w' ++ [closing] ++ r' =
        opening :: (w ++ (w' ++ closing :: r')) := by simp
    rw [htext]
    refine ⟨opening, _, ⟨rfl, rfl⟩, [], closing :: r', .inr ⟨?_, rfl, ?_⟩, closing, r',
      ⟨rfl, [], .nil, rfl⟩, rfl, rfl⟩
    · rw [dropWhile_blanks hw, dropWhile_blanks_cons hw' hclosing.blank]
      exact hmisses r'
    · rw [dropWhile_blanks hw, dropWhile_blanks_cons hw' hclosing.blank]
  | @items w t w' xs hw hitems hw' =>
    have htext : opening :: w ++ t ++ w' ++ [closing] ++ r' =
        opening :: (w ++ (t ++ (w' ++ closing :: r'))) := by simp
    rw [htext] at hf ⊢
    -- the blanks in front of the first item are skipped, and those that belong to it with them
    have hfresh : Fresh (w' ++ closing :: r') :=
      (Fresh.cons hclosing.digit hclosing.point r').blanks hw'
    obtain ⟨x, r₁, ys, hx, hys, rfl⟩ :=
      repeats_of_items (hf _ rfl) hfresh (hstop hw') hitems (List.suffix_append w _)
    refine ⟨opening, _, ⟨rfl, rfl⟩, x :: ys, w' ++ closing :: r',
      .inl ⟨x, r₁, ys, ?_, hys, rfl⟩, closing, r', ⟨rfl, w', hw', rfl⟩, rfl, rfl⟩
    rw [dropWhile_blanks hw]
    exact hblanks hx

end

/-! ## Properties

A property starts with its key, so it skips blanks as a value does, and it ends with its value, so
it is as sound and as complete as the scan for values. -/

section

variable {V : Text → Value → Prop} {f : Scan Value}

/-- A property is a key, a colon behind blanks, and a value. -/
theorem finds_scanProperty {k : Text} {v : Value} :
    (scanProperty f).Finds r (k, v) r' ↔
      ∃ r₁ r₂, scanString.trimmed.Finds r k r₁ ∧ (∃ w, Blanks w ∧ r₁ = w ++ 58 :: r₂) ∧
        f.Finds r₂ v r' := by
  simp only [scanProperty, scanEntry, Scan.finds_bind,
    finds_trimmed_char (show Text.isBlank 58 = false by decide), Scan.finds_pure]
  constructor
  · rintro ⟨_, _, ⟨k', r₁, hk, _, r₂, ⟨-, hcolon⟩, v', _, hv, rfl, rfl⟩, heq, rfl⟩
    cases heq
    exact ⟨r₁, r₂, hk, hcolon, hv⟩
  · rintro ⟨r₁, r₂, hk, hcolon, hv⟩
    exact ⟨(k, 58, v), r', ⟨k, r₁, hk, 58, r₂, ⟨rfl, hcolon⟩, v, r', hv, rfl, rfl⟩, rfl, rfl⟩

/-- A property is spelled if its value is; keys are strings always. -/
theorem Sound.property (hf : Sound V f) : Sound (Property V) (scanProperty f) := by
  rintro r ⟨k, v⟩ r' h
  obtain ⟨r₁, r₂, hk, ⟨w', hw', rfl⟩, hv⟩ := finds_scanProperty.mp h
  obtain ⟨w, hw, hr⟩ := exists_blanks_append r
  obtain ⟨t, hstring, heq⟩ := finds_scanString.mp hk
  obtain ⟨t', hspelled, rfl⟩ := hf hv
  refine ⟨_, .intro hw hstring hw' hspelled, ?_⟩
  rw [hr, heq]
  simp

/-- A property is found if its value is. -/
theorem Complete.property {whole : Text} (hf : Complete whole V f) :
    Complete whole (Property V) (scanProperty f) := by
  rintro _ ⟨k, v⟩ r' @⟨w, t, w', t', _, _, hw, hk, hw', hv⟩ hfresh hwhole
  have htext : w ++ t ++ w' ++ 58 :: t' ++ r' = w ++ (t ++ (w' ++ 58 :: (t' ++ r'))) := by simp
  have hinner : t' ++ r' <:+ whole := by
    refine List.IsSuffix.trans ⟨w ++ t ++ w' ++ [58], ?_⟩ hwhole
    simp
  -- the quote is no blank, so the key is found right behind the blanks
  have hskip : (w ++ (t ++ (w' ++ 58 :: (t' ++ r')))).dropWhile Text.isBlank =
      t ++ (w' ++ 58 :: (t' ++ r')) := by
    cases hk
    exact dropWhile_blanks_cons hw (by decide) _
  rw [htext, finds_scanProperty]
  refine ⟨w' ++ 58 :: (t' ++ r'), t' ++ r', ?_, ⟨w', hw', rfl⟩, hf hv hfresh hinner⟩
  rw [Scan.finds_trimmed, hskip]
  exact finds_scanString.mpr ⟨t, hk, rfl⟩

/-! ## Alternatives

No two alternatives for a value start with the same character, so each of them misses wherever
another one stands. At a closing bracket all of them miss, which is how an empty array is found. -/

/-- A word is missed by its first letter. -/
theorem misses_scanWord {s : String} {v : Value} {u : Nat} {t : Text}
    (hs : Text.ofString s = u :: t) (h : r.head? ≠ some u) : (scanWord s v).Misses r := by
  refine Scan.misses_bind.mpr (.inl (Scan.misses_literal.mpr fun hprefix => ?_))
  obtain ⟨r₁, rfl⟩ := hprefix
  rw [hs] at h
  exact h rfl

theorem misses_scanString (h : r.head? ≠ some 34) : scanString.Misses r :=
  Scan.misses_bind.mpr (.inl (misses_scanChar.mpr h))

theorem misses_scanBracketed {item : Scan α} {opening closing : Nat} (h : r.head? ≠ some opening) :
    (scanBracketed opening closing item).Misses r :=
  Scan.misses_bind.mpr (.inl (misses_scanChar.mpr h))

/-- A number begins with a minus or a digit. -/
theorem misses_scanNumber (hminus : r.head? ≠ some 45) (hdigit : digitAhead r = false) :
    scanNumber.Misses r := by
  have hsign : (scanChar 45).optional.Finds r none r :=
    Scan.finds_optional.mpr (.inr ⟨misses_scanChar.mpr hminus, rfl, rfl⟩)
  exact Scan.misses_bind.mpr (.inl (Scan.misses_bind.mpr (.inr ⟨none, r, hsign,
    Scan.misses_bind.mpr (.inl (misses_scanDigits.mpr hdigit))⟩)))

theorem misses_words (htrue : r.head? ≠ some 116) (hfalse : r.head? ≠ some 102) :
    (Scan.orElse (scanWord "true" (.bool true)) (scanWord "false" (.bool false))).Misses r :=
  Scan.misses_orElse.mpr
    ⟨misses_scanWord (u := 116) rfl htrue, misses_scanWord (u := 102) rfl hfalse⟩

/-- Whether a value can start with the character. -/
def opensValue (u : Nat) : Bool :=
  [116, 102, 110, 34, 123, 45, 91].contains u || Text.isDigit u

/-- What begins no value is missed by every alternative. -/
theorem misses_scanBare {u : Nat} (hu : opensValue u = false) : (scanBare f).Misses (u :: r) := by
  have hne {c : Nat} (hc : opensValue c = true) : (u :: r).head? ≠ some c := by
    rintro ⟨⟩
    exact absurd (hu.symm.trans hc) Bool.false_ne_true
  have hdigit : digitAhead (u :: r) = false := (Bool.or_eq_false_iff.mp hu).2
  refine Scan.misses_orElse.mpr ⟨misses_words (hne rfl) (hne rfl),
    Scan.misses_orElse.mpr ⟨misses_scanWord (u := 110) rfl (hne rfl),
    Scan.misses_orElse.mpr ⟨Scan.misses_bind.mpr (.inl (misses_scanString (hne rfl))),
    Scan.misses_orElse.mpr ⟨?_,
    Scan.misses_orElse.mpr ⟨misses_scanNumber (hne rfl) hdigit, ?_⟩⟩⟩⟩⟩
  · exact Scan.misses_bind.mpr (.inl (misses_scanBracketed (hne rfl)))
  · exact Scan.misses_bind.mpr (.inl (misses_scanBracketed (hne rfl)))

/-- With blanks skipped in front as well, as long as the character is none of them. -/
theorem misses_scanValue {u : Nat} (hu : opensValue u = false) (hblank : Text.isBlank u = false)
    (depth : Nat) :
    (scanValue depth).Misses (u :: r) := by
  cases depth with
  | zero => exact ⟨_, _, rfl⟩
  | succ depth =>
    have hskip := dropWhile_blanks_cons .nil hblank r
    rw [scanValue, Scan.misses_trimmed, ← List.nil_append (u :: r), hskip]
    exact misses_scanBare hu

/-! ## Values

One level at a time: from the scan for the values inside to the scan for the value itself, and from
there by induction on the depth. -/

/-- A number begins with a minus or a digit. -/
theorem NumberLiteral.head {t : Text} {v : Value} (h : NumberLiteral t v) :
    ∃ u t', t = u :: t' ∧ (u = 45 ∨ Text.isDigit u = true) := by
  have hdigits {negative : Bool} {ds : Text} (hds : Digits ds) (rest : Text) :
      ∃ u t', minus negative ++ ds ++ rest = u :: t' ∧ (u = 45 ∨ Text.isDigit u = true) := by
    cases negative with
    | true => exact ⟨45, ds ++ rest, rfl, .inl rfl⟩
    | false =>
      cases ds with
      | nil => exact absurd rfl hds.nonempty
      | cons u us => exact ⟨u, us ++ rest, rfl, .inr (hds.all u List.mem_cons_self)⟩
  cases h with
  | whole negative hds =>
    rw [← List.append_nil (minus negative ++ _)]
    exact hdigits hds []
  | fraction negative hds hfs => exact hdigits hds _

theorem StringLiteral.head {t us : Text} (h : StringLiteral t us) : ∃ t', t = 34 :: t' := by
  cases h
  exact ⟨_, rfl⟩

theorem Bracketed.head {P : Text → α → Prop} {opening closing : Nat} {t : Text} {xs : List α}
    (h : Bracketed P opening closing t xs) : ∃ t', t = opening :: t' := by
  cases h with
  | empty => exact ⟨_, rfl⟩
  | items => exact ⟨_, rfl⟩

/-- A value without blanks in front does not start with one. -/
theorem Bare.head {V : Text → Value → Prop} {t : Text} {v : Value} (h : Bare V t v) :
    ∃ u t', t = u :: t' ∧ Text.isBlank u = Bool.false := by
  cases h with
  | true => exact ⟨116, _, rfl, by decide⟩
  | false => exact ⟨102, _, rfl, by decide⟩
  | null => exact ⟨110, _, rfl, by decide⟩
  | string h =>
    -- a quotation mark, like a bracket, is no blank
    obtain ⟨t', rfl⟩ := h.head
    exact ⟨34, t', rfl, by decide⟩
  | object h =>
    obtain ⟨t', rfl⟩ := h.head
    exact ⟨123, t', rfl, by decide⟩
  | number h =>
    obtain ⟨u, t', rfl, hu⟩ := h.head
    refine ⟨u, t', rfl, Bool.eq_false_iff.mpr fun hblank => ?_⟩
    rcases hu with rfl | hu
    · exact absurd hblank (by decide)
    · exact Bool.false_ne_true ((blank_not_continuing hblank).1.symm.trans hu)
  | array h =>
    obtain ⟨t', rfl⟩ := h.head
    exact ⟨91, t', rfl, by decide⟩

/-- What is found without the blanks is spelled so, and nothing continues it. The alternatives are
those of the notation, one for one. -/
theorem Sound.bare (hf : Sound V f) (hforward : f.Forward) {v : Value}
    (h : (scanBare f).Finds r v r') :
    ∃ t, Bare V t v ∧ r = t ++ r' ∧ continues v r' = false := by
  simp only [scanBare, scanWord, scanObject, scanArray, Scan.finds_orElse, Scan.finds_bind,
    Scan.finds_literal, Scan.finds_pure] at h
  -- the alternatives in their order; of those before the one that was found nothing is needed
  rcases h with h | ⟨-, h | ⟨-, h | ⟨-, h | ⟨-, h | ⟨-, h⟩⟩⟩⟩⟩
  · rcases h with ⟨_, _, rfl, rfl, rfl⟩ | ⟨-, _, _, rfl, rfl, rfl⟩
    · exact ⟨_, .true, rfl, rfl⟩
    · exact ⟨_, .false, rfl, rfl⟩
  · obtain ⟨_, _, rfl, rfl, rfl⟩ := h
    exact ⟨_, .null, rfl, rfl⟩
  · obtain ⟨us, _, hstring, rfl, rfl⟩ := h
    obtain ⟨t, ht, rfl⟩ := finds_scanString.mp hstring
    exact ⟨t, .string ht, rfl, rfl⟩
  · obtain ⟨ps, _, hps, rfl, rfl⟩ := h
    obtain ⟨t, ht, rfl⟩ := hf.property.bracketed (forward_scanProperty hforward) (by decide) hps
    exact ⟨t, .object ht, rfl, rfl⟩
  · obtain ⟨t, ht, rfl, hstop⟩ := finds_scanNumber h
    exact ⟨t, .number ht, rfl, hstop⟩
  · obtain ⟨vs, _, hvs, rfl, rfl⟩ := h
    obtain ⟨t, ht, rfl⟩ := hf.bracketed hforward (by decide) hvs
    exact ⟨t, .array ht, rfl, rfl⟩

/-- A property begins with the quotation mark of its key. -/
theorem misses_scanProperty {u : Nat} (hblank : Text.isBlank u = false) (hu : u ≠ 34) :
    (scanProperty f).Misses (u :: r) := by
  refine Scan.misses_bind.mpr (.inl (Scan.misses_bind.mpr (.inl ?_)))
  rw [Scan.misses_trimmed, List.dropWhile_cons_of_neg (by rw [hblank]; exact Bool.false_ne_true)]
  exact misses_scanString (by simpa using hu)

theorem finds_scanWord (s : String) (v : Value) :
    (scanWord s v).Finds (Text.ofString s ++ r') v r' :=
  Scan.finds_bind.mpr ⟨(), r', Scan.finds_literal.mpr rfl, Scan.finds_pure.mpr ⟨rfl, rfl⟩⟩

/-- An alternative behind the words. -/
theorem finds_behind_words {g : Scan Value} {u : Nat} {v : Value} (htrue : u ≠ 116)
    (hfalse : u ≠ 102) (hnull : u ≠ 110) (hg : g.Finds (u :: r) v r') :
    (Scan.orElse (.orElse (scanWord "true" (.bool true)) (scanWord "false" (.bool false)))
      (.orElse (scanWord "null" .null) g)).Finds (u :: r) v r' := by
  have hne {c : Nat} (hc : u ≠ c) : (u :: r).head? ≠ some c := by simpa using hc
  exact Scan.finds_orElse.mpr (.inr ⟨misses_words (hne htrue) (hne hfalse),
    Scan.finds_orElse.mpr (.inr ⟨misses_scanWord (u := 110) rfl (hne hnull), hg⟩)⟩)

/-- What is spelled without blanks in front is found, if the scan for values inside is complete. -/
theorem finds_bare {t : Text} {v : Value} (h : Bare V t v) (hstop : continues v r' = false)
    (hshort : ShortInteger t v) (hforward : f.Forward) (hblanks : SkipsBlanks f)
    (hmisses : ∀ r, f.Misses (93 :: r))
    (hf : ∀ u inner, t ++ r' = u :: inner → Complete inner V f) :
    (scanBare f).Finds (t ++ r') v r' := by
  cases h with
  | true =>
    exact Scan.finds_orElse.mpr (.inl (Scan.finds_orElse.mpr (.inl (finds_scanWord "true" _))))
  | false =>
    have hmiss : (scanWord "true" (.bool true)).Misses (Text.ofString "false" ++ r') :=
      misses_scanWord (u := 116) rfl fun h => by cases h
    exact Scan.finds_orElse.mpr
      (.inl (Scan.finds_orElse.mpr (.inr ⟨hmiss, finds_scanWord "false" _⟩)))
  | null =>
    have hmiss :=
      misses_words (r := Text.ofString "null" ++ r') (fun h => by cases h) fun h => by cases h
    exact Scan.finds_orElse.mpr
      (.inr ⟨hmiss, Scan.finds_orElse.mpr (.inl (finds_scanWord "null" _))⟩)
  | @string t us hstring =>
    have hfound : scanString.Finds (t ++ r') us r' := finds_scanString.mpr ⟨t, hstring, rfl⟩
    obtain ⟨t', rfl⟩ := hstring.head
    refine finds_behind_words (by decide) (by decide) (by decide) (Scan.finds_orElse.mpr (.inl ?_))
    exact Scan.finds_bind.mpr ⟨us, r', hfound, Scan.finds_pure.mpr ⟨rfl, rfl⟩⟩
  | @object t ps hps =>
    have hfound : (scanBracketed 123 125 (scanProperty f)).Finds (t ++ r') ps r' :=
      finds_bracketed ⟨by decide, by decide, by decide, by decide⟩ (forward_scanProperty hforward)
        (SkipsBlanks.trimmed scanString).bind.bind
          (fun _ => misses_scanProperty (by decide) (by decide)) hps
        fun inner heq => (hf 123 inner heq).property
    obtain ⟨t', rfl⟩ := hps.head
    have hstring : (do return .text (← scanString) : Scan Value).Misses (123 :: t' ++ r') :=
      Scan.misses_bind.mpr (.inl (misses_scanString (by simp)))
    refine finds_behind_words (by decide) (by decide) (by decide)
      (Scan.finds_orElse.mpr (.inr ⟨hstring, ?_⟩))
    exact Scan.finds_orElse.mpr
      (.inl (Scan.finds_bind.mpr ⟨ps, r', hfound, Scan.finds_pure.mpr ⟨rfl, rfl⟩⟩))
  | @number t v hnumber =>
    -- a minus or a digit, with which neither a string nor an object starts
    have hfound : scanNumber.Finds (t ++ r') v r' := finds_number_literal hnumber hstop hshort
    obtain ⟨u, t', rfl, hu⟩ := hnumber.head
    have hne {c : Nat} (hc : c ≠ 45 ∧ Text.isDigit c = false) : u ≠ c := by
      rintro rfl
      exact hu.elim hc.1 fun hu => Bool.false_ne_true (hc.2.symm.trans hu)
    have hhead {c : Nat} (hc : c ≠ 45 ∧ Text.isDigit c = false) :
        (u :: t' ++ r').head? ≠ some c := by
      simpa using hne hc
    have hstring : (do return .text (← scanString) : Scan Value).Misses (u :: t' ++ r') :=
      Scan.misses_bind.mpr (.inl (misses_scanString (hhead (by decide))))
    have hobject : (scanObject f).Misses (u :: t' ++ r') :=
      Scan.misses_bind.mpr (.inl (misses_scanBracketed (hhead (by decide))))
    refine finds_behind_words (hne (by decide)) (hne (by decide)) (hne (by decide)) ?_
    exact Scan.finds_orElse.mpr (.inr ⟨hstring, Scan.finds_orElse.mpr (.inr ⟨hobject,
      Scan.finds_orElse.mpr (.inl hfound)⟩)⟩)
  | @array t vs hvs =>
    have hfound : (scanBracketed 91 93 f).Finds (t ++ r') vs r' :=
      finds_bracketed ⟨by decide, by decide, by decide, by decide⟩ hforward hblanks
        hmisses hvs (hf 91)
    obtain ⟨t', rfl⟩ := hvs.head
    have hstring : (do return .text (← scanString) : Scan Value).Misses (91 :: t' ++ r') :=
      Scan.misses_bind.mpr (.inl (misses_scanString (by simp)))
    have hobject : (scanObject f).Misses (91 :: t' ++ r') :=
      Scan.misses_bind.mpr (.inl (misses_scanBracketed (by simp)))
    have hnumber : scanNumber.Misses (91 :: t' ++ r') := misses_scanNumber (by simp) rfl
    refine finds_behind_words (by decide) (by decide) (by decide)
      (Scan.finds_orElse.mpr (.inr ⟨hstring,
      Scan.finds_orElse.mpr (.inr ⟨hobject, Scan.finds_orElse.mpr (.inr ⟨hnumber, ?_⟩)⟩)⟩))
    exact Scan.finds_bind.mpr ⟨vs, r', hfound, Scan.finds_pure.mpr ⟨rfl, rfl⟩⟩

end

/-- What the scan for values finds is spelled, by induction on the depth. -/
theorem scanValue_sound {depth : Nat} {v : Value} (h : (scanValue depth).Finds r v r') :
    ∃ t, Spells t v ∧ r = t ++ r' ∧ continues v r' = false := by
  induction depth generalizing r v r' with
  | zero => cases h
  | succ depth ih =>
    have hsound : Sound Spells (scanValue depth) := by
      intro r v r' h
      obtain ⟨t, ht, hr, -⟩ := ih h
      exact ⟨t, ht, hr⟩
    -- the blanks that were skipped are those in front of the value
    rw [scanValue, Scan.finds_trimmed] at h
    obtain ⟨w, hw, hr⟩ := exists_blanks_append r
    obtain ⟨t, ht, heq, hstop⟩ := hsound.bare (forward_scanValue depth) h
    refine ⟨w ++ t, .intro hw ht, ?_, hstop⟩
    rw [hr, heq, List.append_assoc]

/-- At every depth the scan for values is trimmed. -/
theorem skipsBlanks_scanValue (depth : Nat) : SkipsBlanks (scanValue depth) := by
  cases depth with
  | zero =>
    intro _ _ _ h
    cases h
  | succ depth => exact .trimmed (scanBare (scanValue depth))

/-- A value behind blanks is found, if the scan for values one level less deep is complete behind
its first character. -/
theorem finds_scanValue_succ {V : Text → Value → Prop} {depth : Nat} {w t : Text} {v : Value}
    (hw : Blanks w) (h : Bare V t v) (hstop : continues v r' = false) (hshort : ShortInteger t v)
    (hf : ∀ u inner, t ++ r' = u :: inner → Complete inner V (scanValue depth)) :
    (scanValue (depth + 1)).Finds (w ++ (t ++ r')) v r' := by
  have hskip : (w ++ (t ++ r')).dropWhile Text.isBlank = t ++ r' := by
    obtain ⟨u, t', rfl, hu⟩ := h.head
    exact dropWhile_blanks_cons hw hu (t' ++ r')
  rw [scanValue, Scan.finds_trimmed, hskip]
  exact finds_bare h hstop hshort (forward_scanValue depth) (skipsBlanks_scanValue depth)
    (fun _ => misses_scanValue (by decide) (by decide) depth) hf

theorem ShortRuns.of_infix {t t' : Text} (h : ShortRuns t) (ht : t' <:+: t) : ShortRuns t' :=
  fun ds hds hall => h ds (hds.trans ht) hall

/-- A value that is spelled is found, if the depth exceeds the length of the text. -/
theorem scanValue_complete {depth : Nat} {t : Text} {v : Value} (h : Spells t v)
    (hstop : continues v r' = false) (hshort : ShortRuns (t ++ r'))
    (hdepth : (t ++ r').length < depth) : (scanValue depth).Finds (t ++ r') v r' := by
  induction depth generalizing t v r' with
  | zero => exact absurd hdepth (Nat.not_lt_zero _)
  | succ depth ih =>
    obtain @⟨w, t, _, hw, hbare⟩ := h
    rw [List.append_assoc] at hshort hdepth ⊢
    refine finds_scanValue_succ hw hbare hstop
      ((hshort.of_infix ⟨w, r', by simp⟩).shortInteger v) ?_
    -- a value inside is spelled in a last part of the text, behind the opening bracket
    intro u inner heq t₁ v₁ r₁ hspelled hfresh hsuffix
    have hwhole : t₁ ++ r₁ <:+ w ++ (t ++ r') := by
      rw [heq]
      exact (hsuffix.trans (List.suffix_cons u inner)).trans (List.suffix_append w _)
    have hlen := hsuffix.length_le
    rw [heq, List.length_append, List.length_cons] at hdepth
    exact ih hspelled (hfresh.continues_eq_false v₁) (hshort.of_infix hwhole.isInfix) (by omega)

/-! ## The parser

What is left is to say in terms of offsets and slices what was said in terms of texts. -/

/-- Where the scan finds a value the parser succeeds, in the same context and with the same log, and
only there. -/
theorem direct_value_ok_iff {p : Parser Factory} (hp : value.check = .ok p) {s : Stream}
    (htext : s.isText = true) (hs : s.InBounds) {budget : Nat}
    (hbudget : s.source.size - s.offset + 3 ≤ budget) {c c' v : Value} {log log' : Log}
    {end' : Stream} :
    p.direct rules budget s c log = (.ok (.ok end' v c'), log') ↔
      ∃ r', (scanValue (s.rest.length + 1)).Finds s.rest v r' ∧ end' = s.source.leaving r' ∧
        c' = c ∧ log' = log := by
  have hlen := hs.length_rest
  have hdepth : s.rest.length + 1 + 2 ≤ budget := by omega
  -- the run is told by the scan of the rest, with one level of depth for each unit
  have hrun : p.direct rules budget (s.source.leaving s.rest) c log = (.ok (.ok end' v c'), log') ↔
      _ :=
    direct_value_result_iff (of_decide_eq_true htext) hp hdepth hs.rest_suffix (Nat.lt_succ_self _)
  rw [hs.leaving_rest] at hrun
  rw [hrun]
  constructor
  · rintro ⟨y, hscan, hresult, rfl⟩
    cases y with
    | missed e r' => cases hresult
    | found x r' =>
      cases hresult
      exact ⟨r', hscan, rfl, rfl, rfl⟩
  · rintro ⟨r', hfound, rfl, rfl, rfl⟩
    exact ⟨_, hfound, rfl, rfl⟩

/-- Where the rest of a stream is told apart in two, the slice is the one and what is behind it the
other. -/
theorem slice_of_append {s : Stream} (hs : s.InBounds) {t r' : Text} (h : s.rest = t ++ r') :
    s.offset ≤ (s.source.leaving r').offset ∧ (s.source.leaving r').offset ≤ s.source.size ∧
      s.source.slice s.offset (s.source.leaving r').offset = t ∧
      s.source.sliceFrom (s.source.leaving r').offset = r' := by
  have hsuffix : r' <:+ s.source.units.toList := by
    refine List.IsSuffix.trans (List.suffix_append t r') ?_
    rw [← h]
    exact hs.rest_suffix
  have hend := Source.inBounds_leaving hsuffix
  have hle : s.offset ≤ (s.source.leaving r').offset := by
    have hlen := hs.length_rest
    rw [h, List.length_append] at hlen
    show s.offset ≤ (s.source.size : Int) - r'.length
    omega
  have hrest : s.source.sliceFrom (s.source.leaving r').offset = r' := Source.rest_leaving hsuffix
  refine ⟨hle, hend.le_size, ?_, hrest⟩
  -- both halves of the text that was left are known, and the second one determines the first
  have happend := s.source.slice_append_sliceFrom hs.nonneg hle hend.le_size
  rw [hrest] at happend
  exact List.append_cancel_right (happend.trans h)

/-- **The parser for values accepts exactly the notation, and computes its meaning.** At any place
of a text, it succeeds with the output `v` and ends at `e` if and only if the text from there to `e`
spells `v` and, where `v` is a number, what follows does not continue it. A success hands on the
context and leaves the log as it is. -/
theorem value_run_iff {p : Parser Factory} (hp : value.check = .ok p) {src : Source}
    (htext : src.kind = .text) (hshort : ShortRuns src.units.toList) {o : Int}
    (ho : (Stream.mk src o).InBounds) {budget : Nat} (hbudget : src.size - o + 3 ≤ budget)
    (c : Value) (log : Log) :
    (∀ s v c' log', p.direct rules budget ⟨src, o⟩ c log = (.ok (.ok s v c'), log') →
      s.source = src ∧ c' = c ∧ log' = log) ∧
    ∀ e v, p.direct rules budget ⟨src, o⟩ c log = (.ok (.ok ⟨src, e⟩ v c), log) ↔
      o ≤ e ∧ e ≤ src.size ∧ Spells (src.slice o e) v ∧ continues v (src.sliceFrom e) = false := by
  have hkind : (Stream.mk src o).isText = true := decide_eq_true htext
  refine ⟨fun s v c' log' h => ?_, fun e v => ?_⟩
  · obtain ⟨r', -, rfl, rfl, rfl⟩ := (direct_value_ok_iff hp hkind ho hbudget).mp h
    exact ⟨rfl, rfl, rfl⟩
  · rw [direct_value_ok_iff hp hkind ho hbudget]
    constructor
    · rintro ⟨r', hfound, hend, -, -⟩
      -- what the scan read is the slice up to the end, and what it left the slice from there
      obtain ⟨t, hspelled, hrest, hstop⟩ := scanValue_sound hfound
      obtain ⟨hle, hsize, hslice, hfrom⟩ := slice_of_append ho hrest
      rw [← hend] at hle hsize hslice hfrom
      exact ⟨hle, hsize, hslice.symm ▸ hspelled, hfrom.symm ▸ hstop⟩
    · rintro ⟨hle, hsize, hspelled, hstop⟩
      have he : (Stream.mk src e).InBounds := ⟨Int.le_trans ho.nonneg hle, hsize⟩
      have happend : src.slice o e ++ src.sliceFrom e = (Stream.mk src o).rest :=
        src.slice_append_sliceFrom ho.nonneg hle hsize
      refine ⟨src.sliceFrom e, ?_, he.leaving_rest.symm, rfl, rfl⟩
      have hsuffix : (Stream.mk src o).rest <:+ src.units.toList := by
        rw [ho.rest_eq]
        exact List.drop_suffix _ _
      rw [← happend] at hsuffix ⊢
      exact scanValue_complete hspelled hstop (hshort.of_infix hsuffix.isInfix) (Nat.lt_succ_self _)

/-- In the text `x[7, "a"]`, an array of a number and a string is read from the second character to
the end. -/
theorem value_run_from_second :
    let src : Source := ⟨0, .text, #[120, 91, 55, 44, 32, 34, 97, 34, 93]⟩
    Parser.direct rules 11 (.deferred (.named valueName)) ⟨src, 1⟩ .null #[]
      = (.ok (.ok ⟨src, 9⟩ (.list [.int 7, .text [97]]) .null), #[]) := by
  intro src
  have hshort : ShortRuns src.units.toList := fun ds hds _ => Nat.le_trans hds.length_le (by decide)
  have ho : (Stream.mk src 1).InBounds := ⟨by decide, by decide⟩
  have hbudget : (src.size : Int) - 1 + 3 ≤ (11 : Nat) := by decide
  have hrun := value_run_iff (p := .deferred (.named valueName)) rfl rfl hshort ho hbudget .null #[]
  have hseven : Spells [55] (.int 7) :=
    .intro .nil (.number (.whole false ⟨by decide, by decide⟩))
  have hletter : Spells [32, 34, 97, 34] (.text [97]) :=
    .intro (w := [32]) (by decide) (.string (.intro (.cons (.raw (by decide) (by decide)) .nil)))
  have hitems : Items Spells ([55] ++ [] ++ 44 :: [32, 34, 97, 34]) [.int 7, .text [97]] :=
    .more hseven .nil (.one hletter)
  have harray :
      Bracketed Spells 91 93 (91 :: [] ++ ([55] ++ [] ++ 44 :: [32, 34, 97, 34]) ++ [] ++ [93]) _ :=
    .items .nil hitems .nil
  have hslice : src.slice 1 9 = [91, 55, 44, 32, 34, 97, 34, 93] := by decide
  refine (hrun.2 9 _).mpr ⟨by decide, by decide, ?_, rfl⟩
  rw [hslice]
  exact .intro .nil (.array harray)

end Descent.Json
