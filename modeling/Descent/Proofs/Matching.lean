import Descent.Proofs.Halting

/-!
# Descent — a leaf matches all or nothing

Most leaves look for something: one unit of a set, or one of a few literals. They come in three
forms, a test of the next unit, a test for a literal at the stream, and the hexadecimal digits,
which look closer where they fail. What they have in common is said here without any of these forms:
either what is looked for stands at the stream, and then exactly this is consumed and given back, or
it does not, and then the leaf fails where it is.

* **`Pattern`** — what a leaf looks for, in streams of one kind: lists of units, each with its
  output.
* **`Terminal.Matches`** — the leaves that look for something, with valid arguments, each with its
  pattern. The sets are listed here as a reader would list them, character by character.
* **`Leaf.Seeks`** — a leaf does what its pattern says. There is one lemma for each of the three
  forms, and `Terminal.Matches.seeks` takes the leaves to them.
* **`Terminal.all_or_nothing`** — the statement for parsers.
-/

namespace Descent

/-! ## Patterns -/

/-- The value is the units as they are, a text or bytes, or it is a single byte as an integer. -/
def Value.StandsFor (kind : Kind) (m : List Nat) (x : Value) : Prop :=
  x = .ofUnits kind m ∨ kind = .bytes ∧ ∃ b : Nat, m = [b] ∧ x = .int b

/-- What a leaf looks for: the units that it accepts in streams of one kind, with the output for
them, and the tags with which it may fail. An output always stands for its units. -/
structure Pattern where
  kind : Kind
  Accepts : List Nat → Value → Prop
  tags : List Tag
  standsFor : ∀ m x, Accepts m x → x.StandsFor kind m

namespace Pattern

/-- One unit of a set. A character becomes a text, a byte an integer. -/
def unit (kind : Kind) (member : Nat → Prop) (tags : List Tag) : Pattern where
  kind := kind
  Accepts m x := ∃ u, member u ∧ m = [u] ∧ x = .ofUnit kind u
  tags := tags
  standsFor m x h := by
    obtain ⟨u, _, hm, hx⟩ := h
    cases kind with
    | text => exact .inl (by rw [hm, hx]; rfl)
    | bytes => exact .inr ⟨rfl, u, hm, hx⟩

/-- One of the characters of a string. -/
def oneOf (members : String) (tags : List Tag) : Pattern :=
  unit .text (· ∈ Text.ofString members) tags

/-- One of some literals, which is its own output. -/
def literal (kind : Kind) (literals : List (List Nat)) (tag : Tag) : Pattern where
  kind := kind
  Accepts m x := m ∈ literals ∧ x = .ofUnits kind m
  tags := [tag]
  standsFor _ _ h := .inl h.2

/-- What is looked for begins the rest of the stream, as the units `m` with the output `x`. -/
structure StandsAt (q : Pattern) (s : Stream) (m : List Nat) (x : Value) : Prop where
  kind : s.kind = q.kind
  accepts : q.Accepts m x
  ahead : m <+: s.rest

section

variable {s : Stream} {kind : Kind} {member : Nat → Prop} {tags : List Tag} {m : List Nat}
  {x : Value}

/-- A unit of a set is looked for in the first unit. -/
theorem standsAt_unit {u : Nat} {rest : List Nat} (hkind : s.kind = kind)
    (hrest : s.rest = u :: rest) (hu : member u) :
    (unit kind member tags).StandsAt s [u] (.ofUnit kind u) := by
  refine ⟨hkind, ⟨u, hu, rfl, rfl⟩, ?_⟩
  rw [hrest]
  exact List.prefix_append [u] rest

/-- What stands for a class of units is one of them. -/
theorem StandsAt.exists_unit (h : (unit kind member tags).StandsAt s m x) :
    ∃ u rest, s.kind = kind ∧ member u ∧ s.rest = u :: rest ∧ m = [u] ∧ x = .ofUnit kind u := by
  obtain ⟨hkind, ⟨u, hu, hm, hx⟩, ahead⟩ := h
  subst hm
  obtain ⟨rest, hrest⟩ := ahead
  exact ⟨u, rest, hkind, hu, hrest.symm, rfl, hx⟩

/-- A line break is a line feed or the pair, and where it is the pair there is no line feed. -/
theorem standsAt_linebreak :
    let either := literal .text [Text.ofString "\n", Text.ofString "\r\n"] .linebreak
    let feed := oneOf "\n" [.lineFeed]
    let pair := literal .text [Text.ofString "\r\n"] .carriageReturnLineFeed
    either.StandsAt s m x ↔ feed.StandsAt s m x ∨ (∀ m' y, ¬ feed.StandsAt s m' y) ∧
      pair.StandsAt s m x := by
  intro either feed pair
  have hfeed : Text.ofString "\n" = [10] := by rfl
  constructor
  · intro h
    obtain ⟨hkind, ⟨hm, hx⟩, ahead⟩ := h
    rcases List.mem_pair.mp hm with hm | hm
    · refine .inl ⟨hkind, ⟨10, ?_, ?_, ?_⟩, ahead⟩
      · rw [hfeed]
        exact List.mem_singleton_self 10
      · rw [hm, hfeed]
      · rw [hx, hm, hfeed]
        rfl
    · refine .inr ⟨fun m' y hfeed' => ?_, hkind, ⟨List.mem_singleton.mpr hm, hx⟩, ahead⟩
      -- the rest would begin with a line feed and with a carriage return
      obtain ⟨v, rest, _, hv, hrest, _, _⟩ := hfeed'.exists_unit
      rw [hfeed, List.mem_singleton] at hv
      have hpair : Text.ofString "\r\n" = [13, 10] := by rfl
      rw [hrest, hm, hpair, hv, List.cons_prefix_cons] at ahead
      exact absurd ahead.1 (by decide)
  · intro h
    rcases h with ⟨hkind, ⟨v, hv, hm, hx⟩, ahead⟩ | ⟨_, hkind, ⟨hm, hx⟩, ahead⟩
    · rw [hfeed, List.mem_singleton] at hv
      rw [hv] at hm hx
      refine ⟨hkind, ⟨?_, ?_⟩, ahead⟩
      · rw [hm, hfeed]
        exact List.mem_cons_self
      · rw [hx, hm]
        rfl
    · exact ⟨hkind, ⟨List.mem_cons_of_mem _ hm, hx⟩, ahead⟩

end

end Pattern

/-- The leaves that look for something, with valid arguments, and what they look for. -/
inductive Terminal.Matches : Terminal → Pattern → Prop where
  | char (c : Nat) : Matches (.char (.text [c])) (.unit .text (· = c) [.char])
  | anyChar : Matches (.leaf (.char .any)) (.unit .text (fun _ => True) [.anyChar])
  | oneOfChars (cs : List Nat) :
    Matches (.oneOf (cs.map fun c => .text [c])) (.unit .text (· ∈ cs) [.oneOfChars])
  | noneOfChars (cs : List Nat) :
    Matches (.noneOf (cs.map fun c => .text [c])) (.unit .text (· ∉ cs) [.noneOfChars])
  | string (t : Text) : Matches (.string (.text t)) (.literal .text [t] .string)
  | octal : Matches (.leaf (.char .octal)) (.oneOf "01234567" [.octal])
  | digit : Matches (.leaf (.char .digit)) (.oneOf "0123456789" [.digit])
  | hexBoth : Matches (.hex (.text (.ofString "both"))) (.oneOf "0123456789ABCDEFabcdef" [.hex])
  | hexUpper :
      Matches (.hex (.text (.ofString "upper"))) (.oneOf "0123456789ABCDEF" [.hex, .upperHex])
  | hexLower :
      Matches (.hex (.text (.ofString "lower"))) (.oneOf "0123456789abcdef" [.hex, .lowerHex])
  | alpha : Matches (.leaf (.char .letter))
      (.oneOf "abcdefghijklmnopqrstuvwxyzABCDEFGHIJKLMNOPQRSTUVWXYZ" [.alphabet])
  | lower : Matches (.leaf (.char .lower)) (.oneOf "abcdefghijklmnopqrstuvwxyz" [.lowerAlphabet])
  | upper : Matches (.leaf (.char .upper)) (.oneOf "ABCDEFGHIJKLMNOPQRSTUVWXYZ" [.upperAlphabet])
  | space : Matches (.leaf (.char .space)) (.oneOf " " [.space])
  | carriageReturn : Matches (.leaf (.char .carriageReturn)) (.oneOf "\r" [.carriageReturn])
  | lineFeed : Matches (.leaf (.char .lineFeed)) (.oneOf "\n" [.lineFeed])
  | tab : Matches (.leaf (.char .tab)) (.oneOf "\t" [.tab])
  | crlf : Matches (.leaf .crlf) (.literal .text [Text.ofString "\r\n"] .carriageReturnLineFeed)
  | linebreak :
      Matches (.leaf .linebreak)
      (.literal .text [Text.ofString "\n", Text.ofString "\r\n"] .linebreak)
  | whitespace : Matches (.leaf (.char .blank)) (.unit .text (· ∈ Text.blanks) [.whitespace])
  | byte (b : Nat) (h : b ≤ 255) : Matches (.byte (.int b)) (.unit .bytes (· = b) [.byte])
  | anyByte : Matches (.leaf (.byte .any)) (.unit .bytes (fun _ => True) [.anyByte])
  | slice (b : List Nat) : Matches (.slice (.bytes b)) (.literal .bytes [b] .slice)
  | sliceOfBuffer (b : List Nat) : Matches (.slice (.buffer b)) (.literal .bytes [b] .slice)

/-! ## The three forms of leaves -/

namespace Leaf

/-- The leaf does what the pattern says, at every stream inside its source. -/
structure Seeks (l : Leaf) (q : Pattern) : Prop where
  found : ∀ s c m x, s.InBounds → q.StandsAt s m x → l.run s c = .ok (.ok (s.advance m.length) x c)
  missed : ∀ s c, s.InBounds → (∀ m x, ¬ q.StandsAt s m x) →
    ∃ tag ∈ q.tags, l.run s c = .ok (.err s (.tag tag) c)

variable {s : Stream} {c : Value} {kind : Kind} {mem : Nat → Bool} {member : Nat → Prop} {tag : Tag}

/-- A test of the next unit. -/
theorem matchUnit_eq (hs : s.InBounds) : matchUnit kind mem tag s c = .ok (match s.rest.head? with
    | some u =>
      if s.kind = kind && mem u then .ok (s.advance 1) (.ofUnit kind u) c else .err s (.tag tag) c
    | none => .err s (.tag tag) c) := by
  unfold matchUnit
  rw [hs.peek_zero]
  cases s.rest with
  | nil => rfl
  | cons u rest =>
    show (if (s.kind = kind && mem u) =
        true then Except.ok (Result.ok (s.advance 1) (.ofUnit kind u) c)
      else .ok (.err s (.tag tag) c)) = .ok (if (s.kind = kind && mem u) = true then _ else _)
    split <;> rfl

/-- A leaf that is given by a class of units seeks a unit of this class. -/
theorem seeks_of_matchUnit {l : Leaf} (hl : ∀ s c, l.run s c = matchUnit kind mem tag s c)
    (hmem : ∀ u, mem u = true ↔ member u) : l.Seeks (.unit kind member [tag]) where
  found s c m x hs h := by
    obtain ⟨u, rest, hkind, hu, hrest, hm, hx⟩ := h.exists_unit
    have hmatch : (decide (s.kind = kind) && mem u) = true := by simp [hkind, (hmem u).mpr hu]
    rw [hl, matchUnit_eq hs, hrest, hm, hx]
    simp only [List.head?_cons, hmatch, if_true]
    rfl
  missed s c hs h := by
    refine ⟨tag, List.mem_singleton_self tag, ?_⟩
    rw [hl, matchUnit_eq hs]
    cases hrest : s.rest with
    | nil => rfl
    | cons u rest =>
      -- a unit of the class would be what is looked for
      have hmatch : ¬ (decide (s.kind = kind) && mem u) = true := by
        intro hmatch
        simp only [Bool.and_eq_true, decide_eq_true_eq] at hmatch
        exact h _ _ (Pattern.standsAt_unit hmatch.1 hrest ((hmem u).mp hmatch.2))
      simp only [List.head?_cons, if_neg hmatch]

/-- A hexadecimal digit, where the tag of a failure depends on what stands in its place. -/
theorem seeks_hex {case : HexCase} {tags : List Tag} (hmem : ∀ u, case.mem u = true ↔ member u)
    (hhex : .hex ∈ tags) (htag : ∀ u, case.mem u = false → HexCase.tagAt u ∈ tags) :
    (Leaf.hex case).Seeks (.unit .text member tags) where
  found s c m x hs h := by
    obtain ⟨u, rest, hkind, hu, hrest, hm, hx⟩ := h.exists_unit
    have htext : s.isText = true := decide_eq_true hkind
    show matchHex case s c = _
    unfold matchHex
    rw [hs.peek_zero, hrest, hm, hx]
    show (if s.isText then if case.mem u then Except.ok (Result.ok (s.advance 1) (.text [u]) c)
        else _ else _) = _
    rw [if_pos htext, if_pos ((hmem u).mpr hu)]
    rfl
  missed s c hs h := by
    show ∃ tag ∈ tags, matchHex case s c = _
    unfold matchHex
    rw [hs.peek_zero]
    cases hrest : s.rest with
    | nil => exact ⟨.hex, hhex, rfl⟩
    | cons u rest =>
      show ∃ tag ∈ tags,
          (if s.isText then if case.mem u then Except.ok (Result.ok (s.advance 1) (.text [u]) c)
        else .ok (.err s (.tag (HexCase.tagAt u)) c) else .ok (.err s (.tag .hex) c)) = _
      split
      next htext =>
        -- in a text, a character that does not match is a digit of the wrong case or no digit
        have hmiss : case.mem u = false := by
          rw [Bool.eq_false_iff]
          intro hu
          exact h _ _ (Pattern.standsAt_unit (of_decide_eq_true htext) hrest ((hmem u).mp hu))
        rw [if_neg (by simp [hmiss])]
        exact ⟨_, htag u hmiss, rfl⟩
      next => exact ⟨.hex, hhex, rfl⟩

/-- Of literals none of which begins another, at most one stands at a stream, so the order in which
they are tried makes no difference. -/
theorem matchLiteral_found {literals : List (List Nat)} {m : List Nat}
    (hfree : ∀ a ∈ literals, ∀ b ∈ literals, a <+: b → a = b) (hs : s.InBounds)
    (hkind : s.kind = kind) (hm : m ∈ literals) (ahead : m <+: s.rest) :
    matchLiteral kind tag s c literals = .ok (s.advance m.length) (.ofUnits kind m) c := by
  induction literals with
  | nil => cases hm
  | cons a literals ih =>
    rw [matchLiteral]
    by_cases ha : (s.kind = kind && s.startsWith a) = true
    · -- both stand here, so the shorter one begins the longer one
      have haAhead : a <+: s.rest := (hs.startsWith_iff a).mp (Bool.and_eq_true_iff.mp ha).2
      have hsame : a = m := by
        cases List.prefix_or_prefix_of_prefix haAhead ahead with
        | inl hprefix => exact hfree a List.mem_cons_self m hm hprefix
        | inr hprefix => exact (hfree m hm a List.mem_cons_self hprefix).symm
      rw [if_pos ha, hsame]
    · -- another literal stands here, so this one is passed over
      have hne : m ≠ a := by
        intro heq
        apply ha
        simp [hkind, ← heq, (hs.startsWith_iff m).mpr ahead]
      rw [if_neg ha]
      exact ih
        (fun b hb b' hb' => hfree b (List.mem_cons_of_mem a hb) b' (List.mem_cons_of_mem a hb'))
        ((List.mem_cons.mp hm).resolve_left hne)

/-- Where none of the literals stands, the leaf fails in place. -/
theorem matchLiteral_missed {literals : List (List Nat)}
    (h : ∀ a ∈ literals, ¬ (s.kind = kind && s.startsWith a) = true) :
    matchLiteral kind tag s c literals = .err s (.tag tag) c := by
  induction literals with
  | nil => rfl
  | cons a literals ih =>
    rw [matchLiteral, if_neg (h a List.mem_cons_self)]
    exact ih fun b hb => h b (List.mem_cons_of_mem a hb)

/-- A leaf that is given by literals seeks them. None is a prefix of another, so their order does
not matter. -/
theorem seeks_of_matchLiteral {l : Leaf} {literals : List (List Nat)}
    (hl : ∀ s c, l.run s c = .ok (matchLiteral kind tag s c literals))
    (hfree : ∀ a ∈ literals, ∀ b ∈ literals, a <+: b → a = b) :
    l.Seeks (.literal kind literals tag) where
  found s c m x hs h := by
    obtain ⟨hm, hx⟩ := h.accepts
    have hkind : s.kind = kind := h.kind
    rw [hl, hx, matchLiteral_found hfree hs hkind hm h.ahead]
  missed s c hs h := by
    refine ⟨tag, List.mem_singleton_self tag, ?_⟩
    rw [hl, matchLiteral_missed]
    intro a ha hmatch
    simp only [Bool.and_eq_true, decide_eq_true_eq] at hmatch
    exact h a _ ⟨hmatch.1, ⟨ha, rfl⟩, (hs.startsWith_iff a).mp hmatch.2⟩

end Leaf

/-! ## The leaves

The sets of characters are ranges, or a few of them, and a string that lists a set in order is read
range by range. -/

/-- The members of a string that lists some ranges, each given by its first character and its
length. -/
theorem Text.mem_ofString_iff {members : String} (ranges : List (Nat × Nat))
    (h : Text.ofString members = ranges.flatMap fun r => List.range' r.1 r.2) (u : Nat) :
    u ∈ Text.ofString members ↔ ∃ r ∈ ranges, r.1 ≤ u ∧ u < r.1 + r.2 := by
  rw [h, List.mem_flatMap]
  simp only [List.mem_range'_1]

theorem Value.mapM_asCharacter (cs : List Nat) :
    (cs.map fun c => Value.text [c]).mapM Value.asCharacter = .ok cs := by
  induction cs with
  | nil => rfl
  | cons c cs ih =>
    rw [List.map_cons, List.mapM_cons, ih]
    rfl

namespace Leaf

theorem seeks_char {cls : CharClass} {member : Nat → Prop}
    (hmem : ∀ u, cls.mem u = true ↔ member u) :
    (Leaf.char cls).Seeks (.unit .text member [cls.tag]) :=
  seeks_of_matchUnit (fun _ _ => rfl) hmem

theorem seeks_byte {cls : ByteClass} {member : Nat → Prop}
    (hmem : ∀ u, cls.mem u = true ↔ member u) :
    (Leaf.byte cls).Seeks (.unit .bytes member [cls.tag]) :=
  seeks_of_matchUnit (fun _ _ => rfl) hmem

/-- A class whose members are listed in a string. -/
theorem seeks_listed {cls : CharClass} {members : String} (ranges : List (Nat × Nat))
    (hlist : Text.ofString members = ranges.flatMap fun r => List.range' r.1 r.2)
    (hmem : ∀ u, cls.mem u = true ↔ ∃ r ∈ ranges, r.1 ≤ u ∧ u < r.1 + r.2) :
    (Leaf.char cls).Seeks (.oneOf members [cls.tag]) :=
  seeks_char fun u => (hmem u).trans (Text.mem_ofString_iff ranges hlist u).symm

end Leaf

/-- Every leaf does what its pattern says. Only its class, its literals and the tags of a
hexadecimal digit are looked at. -/
theorem Terminal.Matches.seeks {t : Terminal} {q : Pattern} (h : t.Matches q) :
    ∃ l, t.check = .ok l ∧ l.Seeks q := by
  have hsingle (t : List Nat) : ∀ a ∈ [t], ∀ b ∈ [t], a <+: b → a = b := by simp
  cases h with
  | char c => exact ⟨.char (.exactly c), rfl, Leaf.seeks_char fun u => decide_eq_true_iff⟩
  | anyChar => exact ⟨_, rfl, Leaf.seeks_char fun u => by simp [CharClass.mem]⟩
  | oneOfChars cs =>
    refine ⟨.char (.oneOf cs), ?_, Leaf.seeks_char fun u => List.contains_iff_mem⟩
    rw [Terminal.check, Value.mapM_asCharacter]
    rfl
  | noneOfChars cs =>
    refine ⟨.char (.noneOf cs), ?_, Leaf.seeks_char fun u => by simp [CharClass.mem]⟩
    rw [Terminal.check, Value.mapM_asCharacter]
    rfl
  | string t => exact ⟨_, rfl, Leaf.seeks_of_matchLiteral (fun _ _ => rfl) (hsingle t)⟩
  | octal => exact ⟨_, rfl, Leaf.seeks_listed [(48, 8)] rfl fun u => by simp [CharClass.mem]; omega⟩
  | digit =>
    exact ⟨_, rfl,
    Leaf.seeks_listed [(48, 10)] rfl fun u => by simp [CharClass.mem, Text.isDigit]; omega⟩
  | hexBoth =>
    -- the three leaves for hexadecimal digits fail under tags that tell the character
    refine ⟨_, rfl, Leaf.seeks_hex (fun u => ?_) (by simp) fun u hu => ?_⟩
    · rw [Text.mem_ofString_iff [(48, 10), (65, 6), (97, 6)] rfl]
      simp [HexCase.mem, Text.isDigit, HexCase.isUpperLetter, HexCase.isLowerLetter]
      omega
    · -- every letter digit is in the class, so the other two tags are not reached
      simp only [HexCase.mem, Bool.or_eq_false_iff] at hu
      simp [HexCase.tagAt, hu.1.2, hu.2]
  | hexUpper =>
    refine ⟨_, rfl, Leaf.seeks_hex (fun u => ?_) (by simp) fun u hu => ?_⟩
    · rw [Text.mem_ofString_iff [(48, 10), (65, 6)] rfl]
      simp [HexCase.mem, Text.isDigit, HexCase.isUpperLetter]
      omega
    · simp only [HexCase.mem, Bool.or_eq_false_iff] at hu
      cases hlower : HexCase.isLowerLetter u <;> simp [HexCase.tagAt, hu.2, hlower]
  | hexLower =>
    refine ⟨_, rfl, Leaf.seeks_hex (fun u => ?_) (by simp) fun u hu => ?_⟩
    · rw [Text.mem_ofString_iff [(48, 10), (97, 6)] rfl]
      simp [HexCase.mem, Text.isDigit, HexCase.isLowerLetter]
      omega
    · simp only [HexCase.mem, Bool.or_eq_false_iff] at hu
      cases hupper : HexCase.isUpperLetter u <;> simp [HexCase.tagAt, hu.2, hupper]
  | alpha =>
    exact ⟨_, rfl,
    Leaf.seeks_listed [(97, 26), (65, 26)] rfl fun u => by simp [CharClass.mem]; omega⟩
  | lower =>
    exact ⟨_, rfl, Leaf.seeks_listed [(97, 26)] rfl fun u => by simp [CharClass.mem]; omega⟩
  | upper =>
    exact ⟨_, rfl, Leaf.seeks_listed [(65, 26)] rfl fun u => by simp [CharClass.mem]; omega⟩
  | space => exact ⟨_, rfl, Leaf.seeks_listed [(32, 1)] rfl fun u => by simp [CharClass.mem]; omega⟩
  | carriageReturn =>
    exact ⟨_, rfl, Leaf.seeks_listed [(13, 1)] rfl fun u => by simp [CharClass.mem]; omega⟩
  | lineFeed =>
    exact ⟨_, rfl, Leaf.seeks_listed [(10, 1)] rfl fun u => by simp [CharClass.mem]; omega⟩
  | tab => exact ⟨_, rfl, Leaf.seeks_listed [(9, 1)] rfl fun u => by simp [CharClass.mem]; omega⟩
  | crlf => exact ⟨_, rfl, Leaf.seeks_of_matchLiteral (fun _ _ => rfl) (hsingle _)⟩
  | linebreak => exact ⟨_, rfl, Leaf.seeks_of_matchLiteral (fun _ _ => rfl) (by decide)⟩
  | whitespace => exact ⟨_, rfl, Leaf.seeks_char fun u => List.contains_iff_mem⟩
  | byte b hb =>
    refine ⟨.byte (.exactly b), ?_, Leaf.seeks_byte fun u => decide_eq_true_iff⟩
    have hrange : (0 : Int) ≤ b ∧ (b : Int) ≤ 255 := by omega
    rw [Terminal.check, Value.asByte, if_pos hrange]
    rfl
  | anyByte => exact ⟨_, rfl, Leaf.seeks_byte fun u => by simp [ByteClass.mem]⟩
  | slice b => exact ⟨_, rfl, Leaf.seeks_of_matchLiteral (fun _ _ => rfl) (hsingle b)⟩
  | sliceOfBuffer b => exact ⟨_, rfl, Leaf.seeks_of_matchLiteral (fun _ _ => rfl) (hsingle b)⟩

/-! ## All or nothing -/

/-- What was consumed is what stood there. -/
theorem Stream.InBounds.consumedSince_advance {s : Stream} (hs : s.InBounds) {m : List Nat}
    (hm : m <+: s.rest) :
    (s.advance m.length).consumedSince s = m := by
  have hcount : ((s.advance m.length).offset - s.offset).toNat = m.length := by
    show (s.offset + m.length - s.offset).toNat = m.length
    omega
  rw [hs.consumedSince_eq (hs.advance hm.length_le) rfl, hcount]
  exact (List.prefix_iff_eq_take.mp hm).symm

namespace Parser

variable {rules : Rules} {s u : Stream} {c d x : Value}

theorem ok_ne_exhausted (r : Result) : (Except.ok r : Except Stop Result) ≠ .error .exhausted := by
  intro h
  cases h

/-- A leaf that returns ends so as a parser, and in no other way. -/
theorem ends_leaf {l : Leaf} {r : Result} :
    (Parser.leaf l).Ends rules s c (.ok r) ↔ l.run s c = .ok r := by
  constructor
  · exact run_of_ends_leaf
  · intro h
    have hrun := direct_leaf rules l 0 s c #[]
    rw [h] at hrun
    exact ends_of_direct hrun (ok_ne_exhausted _)

/-- One of two alternatives succeeds if the first one does, or if that fails and the second one
does. -/
theorem ends_orElse_ok {p q : Parser Factory} :
    (Parser.binary .orElse p q).Ends rules s c (.ok (.ok u x d)) ↔
    p.Ends rules s c (.ok (.ok u x d)) ∨ p.Fails rules s c ∧
      q.Ends rules s c (.ok (.ok u x d)) := by
  rw [ends_binary]
  constructor
  · rintro ⟨_, n, b, log, hrun⟩
    simp only [Binary.toRule, Rule.orElse, Run.fst_bind] at hrun
    cases hp : (p.direct rules n s c log).1 with
    | error stop => simp [hp] at hrun
    | ok attempt =>
      cases attempt with
      | ok t' x' d' =>
        simp only [hp] at hrun
        cases hrun
        exact .inl (ends_of_direct hp (ok_ne_exhausted _))
      | err t' e' d' =>
        simp only [hp] at hrun
        exact .inr ⟨⟨t', e', d', ends_of_direct hp (ok_ne_exhausted _)⟩,
          ends_of_direct hrun (ok_ne_exhausted _)⟩
  · rintro (hp | ⟨⟨t', e', d', hp⟩, hq⟩)
    · obtain ⟨n, hp⟩ := hp.eventually.exists
      refine ⟨ok_ne_exhausted _, n, n, #[], ?_⟩
      simp only [Binary.toRule, Rule.orElse, Run.fst_bind, hp]
      rfl
    · -- one budget that is large enough for both alternatives
      obtain ⟨n, hp, hq⟩ := (hp.eventually.and hq.eventually).exists
      refine ⟨ok_ne_exhausted _, n, n, #[], ?_⟩
      simp only [Binary.toRule, Rule.orElse, Run.fst_bind, hp, hq]

end Parser

namespace Leaf

variable {rules : Rules} {l : Leaf} {q : Pattern} {s u : Stream} {c d x : Value}

/-- A leaf succeeds where what it seeks stands, and in no other way. -/
theorem Seeks.ends_ok_iff (h : l.Seeks q) (hs : s.InBounds) :
    (Parser.leaf l).Ends rules s c (.ok (.ok u x d)) ↔
    ∃ m, q.StandsAt s m x ∧ u = s.advance m.length ∧ d = c := by
  rw [Parser.ends_leaf]
  constructor
  · intro hrun
    by_cases hstands : ∃ m y, q.StandsAt s m y
    · obtain ⟨m, y, hm⟩ := hstands
      rw [h.found s c m y hs hm] at hrun
      cases hrun
      exact ⟨m, hm, rfl, rfl⟩
    · obtain ⟨tag, _, hmissed⟩ := h.missed s c hs fun m y hm => hstands ⟨m, y, hm⟩
      rw [hmissed] at hrun
      cases hrun
  · intro h
    obtain ⟨m, hm, hu, hd⟩ := h
    rw [hu, hd]
    exact h.found s c m x hs hm

/-- A leaf fails where nothing that it seeks stands. -/
theorem Seeks.fails (h : l.Seeks q) (hs : s.InBounds) (hnone : ∀ m x, ¬ q.StandsAt s m x) :
    (Parser.leaf l).Fails rules s c := by
  obtain ⟨tag, _, hmissed⟩ := h.missed s c hs hnone
  exact ⟨s, _, c, Parser.ends_leaf.mpr hmissed⟩

end Leaf

/-- **A leaf matches all or nothing.** Every leaf that looks for something can be built from its
arguments, and at every stream inside its source, text or bytes, and in every context it ends in one
of two ways. It succeeds exactly if the stream is of its kind and what is left begins with something
that it looks for; then its output stands for just what was consumed, and the context is as it was.
Otherwise it fails in the very stream and context with a tag of its own. And a line break succeeds
exactly where a line feed, or else a carriage return with a line feed, does, and with the same
result. -/
theorem Terminal.all_or_nothing (rules : Rules) {s : Stream} (hs : s.InBounds) (c : Value) :
    (∀ t q, Terminal.Matches t q → ∃ p, (Grammar.terminal t).check = .ok p ∧
      (∀ u x d, p.Ends rules s c (.ok (.ok u x d)) ↔
        ∃ m, q.StandsAt s m x ∧ x.StandsFor s.kind m ∧
          u = s.advance m.length ∧ u.consumedSince s = m ∧ d = c) ∧
      ((∀ m x, ¬ q.StandsAt s m x) →
        ∃ tag ∈ q.tags, p.Ends rules s c (.ok (.err s (.tag tag) c)))) ∧
    ∃ p q, (Grammar.leaf .linebreak).check = .ok p ∧
      (Grammar.binary .orElse (.leaf (.char .lineFeed)) (.leaf .crlf)).check = .ok q ∧
      ∀ u x d, p.Ends rules s c (.ok (.ok u x d)) ↔ q.Ends rules s c (.ok (.ok u x d)) := by
  constructor
  · intro t q ht
    obtain ⟨l, hl, hseeks⟩ := ht.seeks
    refine ⟨.leaf l, ?_, fun u x d => ?_, fun hnone => ?_⟩
    · rw [Grammar.check, hl]
      rfl
    · rw [hseeks.ends_ok_iff hs]
      constructor
      · intro h
        obtain ⟨m, hm, hu, hd⟩ := h
        have houtput : x.StandsFor s.kind m := by
          rw [hm.kind]
          exact q.standsFor m x hm.accepts
        refine ⟨m, hm, houtput, hu, ?_, hd⟩
        rw [hu, hs.consumedSince_advance hm.ahead]
      · intro h
        obtain ⟨m, hm, _, hu, _, hd⟩ := h
        exact ⟨m, hm, hu, hd⟩
    · obtain ⟨tag, htag, hmissed⟩ := hseeks.missed s c hs hnone
      exact ⟨tag, htag, Parser.ends_leaf.mpr hmissed⟩
  · refine ⟨.leaf .linebreak, .binary .orElse (.leaf (.char .lineFeed)) (.leaf .crlf), rfl, rfl,
      fun u x d => ?_⟩
    obtain ⟨_, hcheck, hlinebreak⟩ := Matches.linebreak.seeks
    cases hcheck
    obtain ⟨_, hcheck, hfeed⟩ := Matches.lineFeed.seeks
    cases hcheck
    obtain ⟨_, hcheck, hpair⟩ := Matches.crlf.seeks
    cases hcheck
    let breaks : Pattern := .literal .text [Text.ofString "\n", Text.ofString "\r\n"] .linebreak
    -- looking for either is looking for a line feed and then for the pair
    have hbreak : (∃ m, breaks.StandsAt s m x ∧ u = s.advance m.length ∧ d = c) ↔ _ :=
      exists_congr fun m => and_congr_left fun _ => Pattern.standsAt_linebreak
    rw [Parser.ends_orElse_ok, hlinebreak.ends_ok_iff hs, hfeed.ends_ok_iff hs,
      hpair.ends_ok_iff hs, hbreak]
    constructor
    · intro h
      obtain ⟨m, hm, hend⟩ := h
      cases hm with
      | inl hm => exact .inl ⟨m, hm, hend⟩
      | inr hm => exact .inr ⟨hfeed.fails hs hm.1, m, hm.2, hend⟩
    · intro h
      cases h with
      | inl h =>
        obtain ⟨m, hm, hend⟩ := h
        exact ⟨m, .inl hm, hend⟩
      | inr h =>
        obtain ⟨hfails, m, hm, hend⟩ := h
        refine ⟨m, .inr ⟨fun m' y hm' => ?_, hm⟩, hend⟩
        -- where a line feed stands, looking for it does not fail
        obtain ⟨t, e, d', hfailed⟩ := hfails
        have hfound :
            (Parser.leaf (.char .lineFeed)).Ends rules s c (.ok (.ok (s.advance m'.length) y c)) :=
          (hfeed.ends_ok_iff hs).mpr ⟨m', hm', rfl, rfl⟩
        cases hfailed.unique hfound

/-- The line break behind `ab` is the pair, and the carriage return alone is not one. -/
theorem Terminal.all_or_nothing_pair :
    let src : Source := ⟨0, .text, #[97, 98, 13, 10, 13]⟩
    let rules : Rules := fun _ => none
    ∃ p, (Grammar.leaf .linebreak).check = .ok p ∧
      p.Ends rules ⟨src, 2⟩ .null (.ok (.ok ⟨src, 4⟩ (.text [13, 10]) .null)) ∧
      p.Ends rules ⟨src, 4⟩ .null (.ok (.err ⟨src, 4⟩ (.tag .linebreak) .null)) := by
  intro src rules
  have hpair : (⟨src, 2⟩ : Stream).InBounds := ⟨by decide, by decide⟩
  have halone : (⟨src, 4⟩ : Stream).InBounds := ⟨by decide, by decide⟩
  obtain ⟨p, hp, hsucceeds, _⟩ := (all_or_nothing rules hpair .null).1 _ _ Matches.linebreak
  obtain ⟨p', hp', _, hfails⟩ := (all_or_nothing rules halone .null).1 _ _ Matches.linebreak
  have hsame : p' = p := Except.ok.inj (hp'.symm.trans hp)
  subst hsame
  refine ⟨p', hp, ?_, ?_⟩
  · exact (hsucceeds _ _ _).mpr
      ⟨[13, 10], ⟨rfl, ⟨by decide, rfl⟩, by decide⟩, .inl rfl, rfl, rfl, rfl⟩
  · have hnone : ∀ m ∈ [[10], [13, 10]], ¬ m <+: [13] := by decide
    obtain ⟨tag, htag, hend⟩ := hfails fun m x h => hnone m h.accepts.1 h.ahead
    rw [List.mem_singleton.mp htag] at hend
    exact hend

end Descent
