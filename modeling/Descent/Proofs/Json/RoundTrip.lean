import Descent.Json.Printer
import Descent.Proofs.Decimals
import Descent.Proofs.Json.Exact

/-!
# Descent — what is printed as JSON is read back

The printed form of a value is one of its spellings, and it is read back wherever it stands. That
does not follow from the parser being exact, since a printed string may hold more digits in a row
than a number may have; so the values are followed through the scan once more.

* **`Plain`** — the values that JSON has a notation for: null, truth values, integers that can be
  written, texts of code points below U+10000, and lists and tables of such values, the tables with
  distinct keys.
* **`piece_printCodePoint`, `stringLiteral_printString`** — the escapes that are written are among
  those that are read.
* **`bracketed_enclose`** — items, one to a line, between brackets.
* **`value_run_print`** — the parser, run on what is printed, consumes all of it and returns the
  value.
-/

namespace Descent.Json

/-- A value that is printed so that it can be read back. -/
inductive Plain : Value → Prop where
  | null : Plain .null
  | bool (b : Bool) : Plain (.bool b)
  | int {i : Int} (h : Decimal.isWritable i = true) : Plain (.int i)
  | text {t : Text} (h : ∀ u ∈ t, u < 0x10000) : Plain (.text t)
  | list {vs : List Value} (h : ∀ v ∈ vs, Plain v) : Plain (.list vs)
  | table {ps : List (Text × Value)} (hkeys : (ps.map Prod.fst).Nodup)
      (htexts : ∀ p ∈ ps, ∀ u ∈ p.1, u < 0x10000)
      (hvalues : ∀ p ∈ ps, Plain p.2) : Plain (.table (ps.map toEntry))

/-! ## Strings

A code point is written in one of three ways, and each of them is a piece that stands for it: by its
letter behind a backslash, as it is, or by four hexadecimal digits. -/

/-- Each of the sixteen digits is printed as one that is read back, the letters in lower case. -/
theorem hexDigit_spec {d : Nat} (h : d < 16) : HexDigit (Text.hexDigit d) d := by
  rw [Text.hexDigit]
  by_cases hd : d < 10
  · rw [if_pos hd]
    exact .decimal hd
  · obtain ⟨k, rfl⟩ := Nat.exists_eq_add_of_le (Nat.le_of_not_lt hd)
    rw [if_neg hd]
    have hlower : 87 + (10 + k) = 97 + k := by omega
    rw [hlower]
    exact .lower (by omega)

/-- A unit that is written with four digits is read back from them. -/
theorem piece_unitEscape {u : Nat} (h : u < 0x10000) : Piece (unitEscape u) u := by
  -- the four digits from the highest one on
  have hescape : unitEscape u =
      [92, 117, Text.hexDigit (u / 16 / 16 / 16 % 16), Text.hexDigit (u / 16 / 16 % 16),
      Text.hexDigit (u / 16 % 16), Text.hexDigit (u % 16)] := rfl
  have hdigit (n : Nat) : HexDigit (Text.hexDigit (n % 16)) (n % 16) :=
    hexDigit_spec (Nat.mod_lt n (by decide))
  have hvalue : 4096 * (u / 16 / 16 / 16 % 16) + 256 * (u / 16 / 16 % 16) + 16 * (u / 16 % 16) +
      u % 16 = u := by omega
  rw [hescape]
  have hcode :=
    Piece.code (hdigit (u / 16 / 16 / 16)) (hdigit (u / 16 / 16)) (hdigit (u / 16)) (hdigit u)
  rwa [hvalue] at hcode

/-- Whatever is written for a code point is a piece that stands for it. -/
theorem piece_printCodePoint {u : Nat} (h : u < 0x10000) : Piece (printCodePoint u) u := by
  unfold printCodePoint
  split
  · next hu => exact hu ▸ .escape (k := 34) (by decide)
  split
  · next hu => exact hu ▸ .escape (k := 92) (by decide)
  split
  · next hu => exact hu ▸ .escape (k := 98) (by decide)
  split
  · next hu => exact hu ▸ .escape (k := 102) (by decide)
  split
  · next hu => exact hu ▸ .escape (k := 110) (by decide)
  split
  · next hu => exact hu ▸ .escape (k := 114) (by decide)
  split
  · next hu => exact hu ▸ .escape (k := 116) (by decide)
  split
  · next hquote hbackslash _ _ _ _ _ _ => exact .raw hquote hbackslash
  · exact piece_unitEscape h

/-- A text is read back character by character. -/
theorem pieces_flatMap {t : Text} (h : ∀ u ∈ t, u < 0x10000) :
    Pieces (t.flatMap printCodePoint) t := by
  induction t with
  | nil => exact .nil
  | cons u t ih =>
    obtain ⟨hu, ht⟩ := List.forall_mem_cons.mp h
    rw [List.flatMap_cons]
    exact .cons (piece_printCodePoint hu) (ih ht)

/-- A printed text is a string literal for it, quotation marks included. -/
theorem stringLiteral_printString {t : Text} (h : ∀ u ∈ t, u < 0x10000) :
    StringLiteral (printString t) t :=
  .intro (pieces_flatMap h)

/-! ## Numbers -/

/-- A printed number has at least one digit, and nothing but digits. -/
theorem digits_ofNat (n : Nat) : Digits (Decimal.ofNat n) :=
  ⟨Decimal.digitsOnto_ne_nil n [], Decimal.digitsOnto_all (List.forall_mem_nil _)⟩

/-- An integer is printed without a point, so it is read back as one. -/
theorem numberLiteral_ofInt (i : Int) : NumberLiteral (Decimal.ofInt i) (.int i) := by
  cases i with
  | ofNat n =>
    have hnumber := NumberLiteral.whole false (digits_ofNat n)
    rw [Decimal.value_ofNat] at hnumber
    exact hnumber
  | negSucc n =>
    have hnumber := NumberLiteral.whole true (digits_ofNat (n + 1))
    rw [Decimal.value_ofNat] at hnumber
    exact hnumber

/-- An integer that can be written can be read. -/
theorem shortInteger_ofInt {i : Int} (h : Decimal.isWritable i = true) :
    ShortInteger (Decimal.ofInt i) (.int i) := by
  have hlen : (Decimal.ofNat i.natAbs).length ≤ Decimal.maxDigits := of_decide_eq_true h
  intro _ negative ds _ heq hds
  cases i with
  | ofNat n =>
    have hle := congrArg List.length heq
    rw [List.length_append] at hle
    change (Decimal.ofNat n).length = _ at hle
    change (Decimal.ofNat n).length ≤ _ at hlen
    omega
  | negSucc n =>
    -- the minus is the sign and no digit
    change 45 :: Decimal.ofNat (n + 1) = _ at heq
    change (Decimal.ofNat (n + 1)).length ≤ _ at hlen
    cases negative with
    | true =>
      cases heq
      exact hlen
    | false =>
      have hminus := hds.all 45
        (by rw [← show 45 :: Decimal.ofNat (n + 1) = ds from heq]; exact List.mem_cons_self)
      exact absurd hminus (by decide)

/-! ## Items

A line break and the spaces behind it are blanks. Those before the first item belong to the bracket,
those before any other item to the item, so an item has to stand for its value with any blanks in
front. -/

theorem blanks_newLine (level : Nat) : Blanks (newLine level) := by
  refine List.forall_mem_cons.mpr ⟨by decide, fun u hu => ?_⟩
  rw [List.eq_of_mem_replicate hu]
  decide

section

variable {α : Type} {P : Text → α → Prop}

/-- A text that stands for an item, with any blanks in front. -/
def Stands (P : Text → α → Prop) (t : Text) (x : α) : Prop :=
  ∀ w, Blanks w → P (w ++ t) x

/-- Items with commas between them, and a gap of blanks behind each comma. -/
theorem items_intercalate {gap : Text} (hgap : Blanks gap) {t : Text} {ts : List Text} {x : α}
    {xs : List α} (h : Stands P t x) (hrest : List.Forall₂ (Stands P) ts xs) {w : Text}
    (hw : Blanks w) :
    Items P (w ++ Text.intercalate ([44] ++ gap) (t :: ts)) (x :: xs) := by
  induction hrest generalizing t x w with
  | nil => exact .one (h w hw)
  | @cons t' x' ts xs h' _ ih =>
    -- the gap behind a comma is in front of the next item
    have htext : w ++ Text.intercalate ([44] ++ gap) (t :: t' :: ts)
        = w ++ t ++ [] ++ 44 :: (gap ++ Text.intercalate ([44] ++ gap) (t' :: ts)) := by
      simp [Text.intercalate]
    rw [htext]
    exact .more (h w hw) .nil (ih h' hgap)

/-- Items, one to a line, between brackets. -/
theorem bracketed_enclose {ts : List Text} {xs : List α} (h : List.Forall₂ (Stands P) ts xs)
    (opening closing : Char) (level : Nat) :
    Bracketed P opening.toNat closing.toNat (enclose opening closing level ts) xs := by
  cases h with
  | nil =>
    exact .empty .nil .nil
  | @cons t x ts xs h hrest =>
    have hitems := items_intercalate (blanks_newLine (level + 1)) h hrest .nil
    exact .items (blanks_newLine (level + 1)) hitems (blanks_newLine level)

end

/-! ## Values

By induction on the value. The parts of a list or table are printed one level further in, so the
statement is for any level, and it is for any text behind that does not continue a number. -/

/-- A printed value, with blanks in front, among given ones. -/
inductive PrintedIn (vs : List Value) : Text → Value → Prop where
  | intro {w : Text} {level : Nat} {v : Value} (hw : Blanks w) (hv : v ∈ vs) :
      PrintedIn vs (w ++ print level v) v

/-- Printed values stand for the values, one for one. -/
theorem forall₂_printAll (level : Nat) {vs all : List Value} (h : ∀ v ∈ vs, v ∈ all) :
    List.Forall₂ (Stands (PrintedIn all)) (printAll level vs) vs := by
  induction vs with
  | nil =>
    rw [printAll]
    exact .nil
  | cons v vs ih =>
    obtain ⟨hv, hvs⟩ := List.forall_mem_cons.mp h
    rw [printAll]
    exact .cons (fun _ hw => .intro hw hv) (ih hvs)

/-- Printed entries stand for the properties, in the same order. -/
theorem forall₂_printEntries (level : Nat) {ps : List (Text × Value)} {all : List Value}
    (h : ∀ p ∈ ps, p.2 ∈ all) (htexts : ∀ p ∈ ps, ∀ u ∈ p.1, u < 0x10000) :
    List.Forall₂ (Stands (Property (PrintedIn all))) (printEntries level (ps.map toEntry)) ps := by
  induction ps with
  | nil =>
    rw [List.map_nil, printEntries]
    exact .nil
  | cons p ps ih =>
    obtain ⟨hp, hps⟩ := List.forall_mem_cons.mp h
    obtain ⟨hkey, hkeys⟩ := List.forall_mem_cons.mp htexts
    rw [List.map_cons, toEntry, printEntries, printKey]
    refine .cons (fun w hw => ?_) (ih hps hkeys)
    -- the space behind the colon is in front of the value
    have hvalue : PrintedIn all ([32] ++ print level p.2) p.2 := .intro (by decide) hp
    have hproperty := Property.intro hw (stringLiteral_printString hkey) .nil hvalue
    rw [List.append_nil, List.append_assoc] at hproperty
    rw [List.append_assoc (printString p.1)]
    exact hproperty

/-- A value without parts is found at any depth. -/
theorem finds_scalar {t : Text} {v : Value} (h : Bare (fun _ _ => False) t v) {depth : Nat}
    {w r' : Text} (hw : Blanks w) (hfresh : Fresh r') (hshort : ShortInteger t v)
    (hdepth : (w ++ (t ++ r')).length < depth) :
    (scanValue depth).Finds (w ++ (t ++ r')) v r' := by
  obtain ⟨depth, rfl⟩ : ∃ d, depth = d + 1 := ⟨depth - 1, by omega⟩
  exact finds_scanValue_succ hw h (hfresh.continues_eq_false v) hshort fun _ _ _ _ _ _ h => h.elim

/-- A value with printed parts is found, if its parts are. -/
theorem finds_compound {t : Text} {v : Value} {vs : List Value} (h : Bare (PrintedIn vs) t v)
    {depth : Nat} {w r' : Text} (hw : Blanks w) (hfresh : Fresh r') (hshort : ShortInteger t v)
    (hdepth : (w ++ (t ++ r')).length < depth)
    (hparts : ∀ v ∈ vs, ∀ {depth level : Nat} {w r' : Text}, Blanks w → Fresh r' →
      (w ++ (print level v ++ r')).length < depth →
      (scanValue depth).Finds (w ++ (print level v ++ r')) v r') :
    (scanValue depth).Finds (w ++ (t ++ r')) v r' := by
  obtain ⟨depth, rfl⟩ : ∃ d, depth = d + 1 := ⟨depth - 1, by omega⟩
  refine finds_scanValue_succ hw h (hfresh.continues_eq_false v) hshort ?_
  -- each part lies behind the opening bracket, where one level of depth less is enough
  rintro u inner heq _ v r₁ @⟨w₁, level, _, hw₁, hv⟩ hfresh₁ hsuffix
  have hlen := hsuffix.length_le
  rw [heq, List.length_append, List.length_cons] at hdepth
  rw [List.append_assoc] at hlen ⊢
  exact hparts v hv hw₁ hfresh₁ (by omega)

/-- **What is printed is found.** A printed value is found wherever it stands, behind blanks and in
front of anything that continues no number. -/
theorem finds_print {v : Value} (h : Plain v) {depth level : Nat} {w r' : Text} (hw : Blanks w)
    (hfresh : Fresh r') (hdepth : (w ++ (print level v ++ r')).length < depth) :
    (scanValue depth).Finds (w ++ (print level v ++ r')) v r' := by
  induction h generalizing depth level w r' with
  | null =>
    rw [print] at hdepth ⊢
    · exact finds_scalar .null hw hfresh (.of_ne_int (by simp)) hdepth
    all_goals simp
  | bool b =>
    cases b with
    | true =>
      rw [print] at hdepth ⊢
      exact finds_scalar .true hw hfresh (.of_ne_int (by simp)) hdepth
    | false =>
      rw [print] at hdepth ⊢
      exact finds_scalar .false hw hfresh (.of_ne_int (by simp)) hdepth
  | @int i hi =>
    rw [print] at hdepth ⊢
    exact finds_scalar (.number (numberLiteral_ofInt i)) hw hfresh (shortInteger_ofInt hi) hdepth
  | text ht =>
    rw [print] at hdepth ⊢
    exact finds_scalar (.string (stringLiteral_printString ht)) hw hfresh
      (.of_ne_int (by simp)) hdepth
  | @list vs _ ih =>
    have harray : Bracketed (PrintedIn vs) 91 93 (print level (.list vs)) vs := by
      rw [print]
      exact bracketed_enclose (forall₂_printAll (level + 1) fun _ hv => hv) '[' ']' level
    exact finds_compound (.array harray) hw hfresh (.of_ne_int (by simp)) hdepth ih
  | @table ps hkeys htexts _ ih =>
    -- the keys are distinct, so the dictionary of the properties is the table itself
    have hobject :
        Bracketed (Property (PrintedIn (ps.map Prod.snd))) 123 125
        (print level (.table (ps.map toEntry))) ps := by
      rw [print]
      exact bracketed_enclose
        (forall₂_printEntries (level + 1) (fun _ hp => List.mem_map_of_mem hp) htexts) '\x7b' '\x7d'
        level
    have hbare := Bare.object hobject
    rw [dictionary_of_nodup hkeys] at hbare
    refine finds_compound hbare hw hfresh (.of_ne_int (by simp)) hdepth fun v hv => ?_
    obtain ⟨p, hp, rfl⟩ := List.mem_map.mp hv
    exact ih p hp

/-- **Printed values are read back.** The parser for values, run on the printed form of a plain
value, consumes the whole text and returns the value itself, its tables in the order of their
entries. -/
theorem value_run_print {v : Value} (hv : Plain v) {p : Parser Factory} (hp : value.check = .ok p)
    {src : Source} (htext : src.kind = .text) (hunits : src.units.toList = print 0 v) {budget : Nat}
    (hbudget : src.size + 3 ≤ budget) (c : Value) (log : Log) :
    p.direct rules budget ⟨src, 0⟩ c log = (.ok (.ok ⟨src, src.size⟩ v c), log) := by
  have hstart : (Stream.mk src 0).InBounds := ⟨Int.le_refl 0, Int.natCast_nonneg src.size⟩
  -- the text is the printed value, with no blanks in front and nothing behind
  have hrest : (Stream.mk src 0).rest = [] ++ (print 0 v ++ []) := by
    rw [hstart.rest_eq, List.nil_append, List.append_nil]
    exact hunits
  have hend : (⟨src, src.size⟩ : Stream) = src.leaving [] := by
    simp [Source.leaving]
  have hkind : (Stream.mk src 0).isText = true := decide_eq_true htext
  rw [direct_value_ok_iff hp hkind hstart (by change (src.size : Int) - 0 + 3 ≤ budget; omega)]
  refine ⟨[], ?_, hend, rfl, rfl⟩
  rw [hrest]
  exact finds_print hv .nil ⟨rfl, rfl⟩ (Nat.lt_succ_self _)

/-- A table with a list in it, whose text has a quote, a line feed and a lone surrogate. -/
theorem value_run_print_nested :
    let v : Value := .table
      [(.text [107], .list [.int (-50), .null, .text [34, 10, 0xD800]]), (.text [], .list [])]
    let src : Source := ⟨0, .text, (print 0 v).toArray⟩
    Parser.direct rules (src.size + 3) (.deferred (.named valueName)) ⟨src, 0⟩ .null #[]
      = (.ok (.ok ⟨src, src.size⟩ v .null), #[]) := by
  intro v src
  have hwritable : Decimal.isWritable (-50) = true := by
    simp [Decimal.isWritable, Decimal.ofNat, Decimal.digitsOnto, Decimal.maxDigits]
  have hlist : Plain (.list [.int (-50), .null, .text [34, 10, 0xD800]]) := by
    refine .list (List.forall_mem_cons.mpr ⟨.int hwritable, List.forall_mem_cons.mpr ⟨.null, ?_⟩⟩)
    exact List.forall_mem_singleton.mpr (.text (by decide))
  have hplain : Plain (.table (List.map toEntry
      [([107], .list [.int (-50), .null, .text [34, 10, 0xD800]]), ([], .list [])])) := by
    refine .table (by decide) (by decide) ?_
    exact List.forall_mem_cons.mpr
      ⟨hlist, List.forall_mem_singleton.mpr (.list (List.forall_mem_nil _))⟩
  exact value_run_print hplain rfl rfl rfl (Nat.le_refl _) .null #[]

end Descent.Json
