import Descent.Proofs.Json.Literals

/-!
# Descent — spellings of a string

A character of a JSON string may be written as it is, by a letter behind a backslash, or by its
number in hexadecimal digits, for which a character above U+FFFF takes two escapes, one for each
half of its UTF-16 form. Every spelling is read, whatever stands next to it. But each escape is one
code point to the parser, so two halves stay two.

* **`Spelling`** — the ways to write a code point.
* **`heard`** — what a spelling is read as: the code point, or its two halves.
* **`string_run_spelled`** — the parser for strings, run on any spelling of any code points.
* **`halves_not_joined`** — one character, written as it is and by two escapes, is read as two
  different texts.
-/

namespace Descent.Json

/-! ## Ways to write a code point -/

/-- A backslash, the letter `u` and four hexadecimal digits of either case, and the number that they
denote. -/
inductive CodeEscape : Text → Nat → Prop where
  | intro {a b c d w x y z : Nat} (ha : HexDigit a w) (hb : HexDigit b x) (hc : HexDigit c y)
      (hd : HexDigit d z) :
      CodeEscape [92, 117, a, b, c, d] (4096 * w + 256 * x + 16 * y + z)

/-- The high half of the UTF-16 form of a code point above U+FFFF. -/
def highHalf (u : Nat) : Nat :=
  0xD800 + (u - 0x10000) / 0x400

/-- The low half of the UTF-16 form of a code point above U+FFFF. -/
def lowHalf (u : Nat) : Nat :=
  0xDC00 + (u - 0x10000) % 0x400

/-- A way to write a code point: a piece that stands for it or, above U+FFFF, an escape for each of
its halves. -/
inductive Spelling : Text → Nat → Prop where
  | piece {t : Text} {u : Nat} (h : Piece t u) : Spelling t u
  | pair {t t' : Text} {u : Nat} (habove : 0x10000 ≤ u) (hbelow : u < 0x110000)
      (hhigh : CodeEscape t (highHalf u))
      (hlow : CodeEscape t' (lowHalf u)) : Spelling (t ++ t') u

/-- What a spelling of a code point is read as. A character above U+FFFF that is not written as it
is comes out as its two halves. -/
def heard (t : Text) (u : Nat) : Text :=
  if u < 0x10000 ∨ t = [u] then [u] else [highHalf u, lowHalf u]

/-- A string of which each code point is written in the way given for it. -/
def quoted (spelled : List (Text × Nat)) : Text :=
  34 :: spelled.flatMap Prod.fst ++ [34]

/-! ## Spellings are pieces

One piece for each escape. That a piece names a code point above U+FFFF leaves only the character
itself. -/

theorem CodeEscape.piece {t : Text} {u : Nat} (h : CodeEscape t u) : Piece t u := by
  cases h with
  | intro ha hb hc hd => exact .code ha hb hc hd

theorem CodeEscape.length_eq {t : Text} {u : Nat} (h : CodeEscape t u) : t.length = 6 := by
  cases h
  rfl

theorem Pieces.append {t t' us us' : Text} (h : Pieces t us) (h' : Pieces t' us') :
    Pieces (t ++ t') (us ++ us') := by
  induction h with
  | nil => exact h'
  | cons hpiece _ ih =>
    rw [List.append_assoc]
    exact .cons hpiece ih

theorem Piece.pieces {t : Text} {u : Nat} (h : Piece t u) : Pieces t [u] := by
  have hpieces := Pieces.cons h .nil
  rwa [List.append_nil] at hpieces

theorem HexDigit.lt_sixteen {a w : Nat} (h : HexDigit a w) : w < 16 := by
  cases h <;> omega

/-- Four hexadecimal digits name no code point above U+FFFF, so a piece that stands for one is the
character itself. -/
theorem Piece.below_or_raw {t : Text} {u : Nat} (h : Piece t u) : u < 0x10000 ∨ t = [u] := by
  cases h with
  | raw => exact .inr rfl
  | escape h =>
    have hall : ∀ e ∈ escapeMeanings, e.2 < 0x10000 := by decide
    exact .inl (hall _ h)
  | code ha hb hc hd =>
    have ha := ha.lt_sixteen
    have hb := hb.lt_sixteen
    have hc := hc.lt_sixteen
    have hd := hd.lt_sixteen
    exact .inl (by omega)

/-- A pair of escapes is two pieces, and each stands for a half of its own. -/
theorem Spelling.pieces {t : Text} {u : Nat} (h : Spelling t u) : Pieces t (heard t u) := by
  cases h with
  | piece h =>
    rw [heard, if_pos h.below_or_raw]
    exact h.pieces
  | @pair t t' _ habove _ hhigh hlow =>
    -- two escapes are longer than one character
    have hlong : t ++ t' ≠ [u] := by
      intro heq
      have hlen := congrArg List.length heq
      rw [List.length_append, hhigh.length_eq, hlow.length_eq] at hlen
      cases hlen
    have hnot : ¬ (u < 0x10000 ∨ t ++ t' = [u]) := by
      rintro (hbelow | heq)
      · omega
      · exact hlong heq
    rw [heard, if_neg hnot]
    exact hhigh.piece.pieces.append hlow.piece.pieces

/-- What a sequence of spellings is read as. -/
def heardAll (spelled : List (Text × Nat)) : Text :=
  spelled.flatMap fun x => heard x.1 x.2

/-- Spellings in a row are the pieces of what is heard, in the same order. -/
theorem pieces_of_spelled {spelled : List (Text × Nat)} (h : ∀ x ∈ spelled, Spelling x.1 x.2) :
    Pieces (spelled.flatMap Prod.fst) (heardAll spelled) := by
  induction spelled with
  | nil => exact .nil
  | cons x spelled ih =>
    obtain ⟨hx, hrest⟩ := List.forall_mem_cons.mp h
    rw [heardAll, List.flatMap_cons, List.flatMap_cons]
    exact hx.pieces.append (ih hrest)

theorem stringLiteral_quoted {spelled : List (Text × Nat)} (h : ∀ x ∈ spelled, Spelling x.1 x.2) :
    StringLiteral (quoted spelled) (heardAll spelled) :=
  .intro (pieces_of_spelled h)

/-! ## When the code points come back

A spelling is read as one code point or as two, so a sequence that comes back as it was has none
that is read as two. -/

/-- What is heard is the code point itself, unless it is above U+FFFF and escaped. -/
theorem heard_eq_singleton {t : Text} {u : Nat} : heard t u = [u] ↔ u < 0x10000 ∨ t = [u] := by
  rw [heard]
  by_cases h : u < 0x10000 ∨ t = [u]
  · rw [if_pos h]
    exact ⟨fun _ => h, fun _ => rfl⟩
  · rw [if_neg h]
    exact ⟨fun heq => absurd (congrArg List.length heq) (by simp), fun h' => absurd h' h⟩

/-- Something is heard of every spelling. -/
theorem length_heard_pos (t : Text) (u : Nat) : 1 ≤ (heard t u).length := by
  rw [heard]
  split
  · exact Nat.le_refl 1
  · exact Nat.le_succ 1

/-- So at least as much is heard as there are spellings. -/
theorem length_le_heardAll (spelled : List (Text × Nat)) :
    spelled.length ≤ (heardAll spelled).length := by
  induction spelled with
  | nil => exact Nat.le_refl 0
  | cons x spelled ih =>
    have hx := length_heard_pos x.1 x.2
    rw [heardAll, List.flatMap_cons, List.length_append, List.length_cons]
    change spelled.length ≤ (spelled.flatMap fun x => heard x.1 x.2).length at ih
    omega

/-- Since nothing is heard as less than one code point, all that is heard is what was meant only if
each spelling by itself is. -/
theorem heardAll_eq_iff (spelled : List (Text × Nat)) :
    heardAll spelled = spelled.map Prod.snd ↔ ∀ x ∈ spelled, x.2 < 0x10000 ∨ x.1 = [x.2] := by
  induction spelled with
  | nil => exact ⟨fun _ => nofun, fun _ => rfl⟩
  | cons x spelled ih =>
    have hcons : heardAll (x :: spelled) = heard x.1 x.2 ++ heardAll spelled := List.flatMap_cons
    rw [hcons, List.map_cons, List.forall_mem_cons, ← ih, ← heard_eq_singleton]
    constructor
    · intro h
      -- the rest is read as at least as many code points as there are, so the first one is read as
      -- one
      have hlen := congrArg List.length h
      have hrest := length_le_heardAll spelled
      have hpos := length_heard_pos x.1 x.2
      rw [List.length_append, List.length_cons, List.length_map] at hlen
      have hone : (heard x.1 x.2).length = [x.2].length := by
        rw [List.length_singleton]
        omega
      exact List.append_inj h hone
    · rintro ⟨hx, hrest⟩
      rw [hx, hrest]
      rfl

/-! ## The parser -/

/-- A string that is spelled is read wherever it stands, up to its closing quote. -/
theorem string_run {p : Parser Factory} (hp : string.check = .ok p) {s : Stream}
    (htext : s.isText = true) (hs : s.InBounds) {t us r : Text} (h : StringLiteral t us)
    (hrest : s.rest = t ++ r) {budget : Nat} (hbudget : s.rest.length + 2 ≤ budget) (c : Value)
    (log : Log) :
    p.direct rules budget s c log = (.ok (.ok (s.advance t.length) (.text us) c), log) := by
  obtain ⟨budget, rfl⟩ : ∃ b, budget = b + 1 := ⟨budget - 1, by omega⟩
  have hfound : scanString s.rest = .ok (.found us r) := finds_scanString.mpr ⟨t, h, hrest⟩
  rw [(follows_string (of_decide_eq_true htext) (by omega)).direct hs hp c, hfound,
    hs.advance_eq_leaving hrest]
  rfl

/-- **A string may be spelled in any way, and each escape is one code point.** On a string of which
every code point is written as it is, by its letter behind a backslash, or by its number in
hexadecimal digits of either case, the parser succeeds, whatever follows, and consumes exactly the
string. What it puts out are the code points, except that one above U+FFFF which is written by two
escapes comes out as its two halves; so they all come back if and only if every one above U+FFFF is
written as it is. -/
theorem string_run_spelled {p : Parser Factory} (hp : string.check = .ok p) {s : Stream}
    (htext : s.isText = true) (hs : s.InBounds) {spelled : List (Text × Nat)}
    (hspelled : ∀ x ∈ spelled, Spelling x.1 x.2) {r : Text} (hrest : s.rest = quoted spelled ++ r)
    {budget : Nat} (hbudget : s.rest.length + 2 ≤ budget) (c : Value) (log : Log) :
    p.direct rules budget s c log
      = (.ok (.ok (s.advance (quoted spelled).length) (.text (heardAll spelled)) c), log) ∧
    (heardAll spelled = spelled.map Prod.snd ↔ ∀ x ∈ spelled, x.2 < 0x10000 ∨ x.1 = [x.2]) :=
  ⟨string_run hp htext hs (stringLiteral_quoted hspelled) hrest hbudget c log,
    heardAll_eq_iff spelled⟩

/-- The escapes of the two halves of U+1F600, in digits of either case. -/
theorem spelling_halves :
    Spelling [92, 117, 68, 56, 51, 68, 92, 117, 100, 101, 48, 48] 0x1F600 := by
  have hhigh : CodeEscape [92, 117, 68, 56, 51, 68] (highHalf 0x1F600) :=
    .intro (.upper (d := 3) (by decide)) (.decimal (d := 8) (by decide))
      (.decimal (d := 3) (by decide)) (.upper (d := 3) (by decide))
  have hlow : CodeEscape [92, 117, 100, 101, 48, 48] (lowHalf 0x1F600) :=
    .intro (.lower (d := 3) (by decide)) (.lower (d := 4) (by decide))
      (.decimal (d := 0) (by decide)) (.decimal (d := 0) (by decide))
  exact .pair (by decide) (by decide) hhigh hlow

/-- A quote by its letter, a line feed by its number, and U+1F600 as it is and by two escapes, in
front of a letter. -/
theorem string_run_spelled_mixed :
    let src : Source :=
      ⟨0, .text, #[34, 92, 34, 92, 117, 48, 48, 48, 65, 0x1F600, 92, 117, 68, 56, 51, 68, 92, 117,
        100, 101, 48, 48, 34, 120]⟩
    ∃ p, string.check = .ok p ∧ p.direct rules 26 ⟨src, 0⟩ .null #[]
      = (.ok (.ok ⟨src, 23⟩ (.text [34, 10, 0x1F600, 0xD83D, 0xDE00]) .null), #[]) := by
  intro src
  have hcode : Piece [92, 117, 48, 48, 48, 65] 10 :=
    .code (.decimal (d := 0) (by decide)) (.decimal (d := 0) (by decide))
      (.decimal (d := 0) (by decide)) (.upper (d := 0) (by decide))
  have hspelled : ∀ x ∈ [([92, 34], 34), ([92, 117, 48, 48, 48, 65], 10), ([0x1F600], 0x1F600),
      ([92, 117, 68, 56, 51, 68, 92, 117, 100, 101, 48, 48], 0x1F600)], Spelling x.1 x.2 := by
    simp only [List.forall_mem_cons]
    exact ⟨.piece (.escape (by decide)), .piece hcode, .piece (.raw (by decide) (by decide)),
      spelling_halves, nofun⟩
  refine ⟨_, rfl, ?_⟩
  exact (string_run_spelled rfl rfl (s := ⟨src, 0⟩) ⟨by decide, by decide⟩ hspelled
    (r := [120]) (by decide) (by decide) .null #[]).1

/-- **The value depends on the spelling.** Between quotes, U+1F600 as it is and its two escapes are
spellings of one and the same code point, and are read as different texts. -/
theorem halves_not_joined :
    let raw : Source := ⟨0, .text, #[34, 0x1F600, 34]⟩
    let escaped : Source :=
      ⟨0, .text, #[34, 92, 117, 68, 56, 51, 68, 92, 117, 100, 101, 48, 48, 34]⟩
    Spelling [0x1F600] 0x1F600 ∧
      Spelling [92, 117, 68, 56, 51, 68, 92, 117, 100, 101, 48, 48] 0x1F600 ∧
    ∃ p, string.check = .ok p ∧
      p.direct rules 16 ⟨raw, 0⟩ .null #[] = (.ok (.ok ⟨raw, 3⟩ (.text [0x1F600]) .null), #[]) ∧
      p.direct rules 16 ⟨escaped, 0⟩ .null #[] =
        (.ok (.ok ⟨escaped, 14⟩ (.text [0xD83D, 0xDE00]) .null), #[]) := by
  intro raw escaped
  have hraw : Spelling [0x1F600] 0x1F600 := .piece (.raw (by decide) (by decide))
  refine ⟨hraw, spelling_halves, _, rfl, ?_, ?_⟩
  · exact string_run rfl rfl (s := ⟨raw, 0⟩) ⟨by decide, by decide⟩
      (.intro hraw.pieces) (r := []) (by decide) (by decide) .null #[]
  · exact string_run rfl rfl (s := ⟨escaped, 0⟩) ⟨by decide, by decide⟩
      (.intro spelling_halves.pieces) (r := []) (by decide) (by decide) .null #[]

end Descent.Json
