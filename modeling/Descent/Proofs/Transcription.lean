import Descent.Proofs.Locality
import Descent.Proofs.Recast

/-!
# Descent — one grammar for texts and for their bytes

In Latin-1 a character of code point up to 255 is one byte, its code. A grammar of characters and
literals can then be read as one of bytes, and the two run side by side on a text and on its bytes:
the combinators do not know which kind they are given, and the leaves of both kinds do the same with
units, a newline included.

* **`Recasting.latin1`** — bytes in place of characters, slices in place of literals.
* **`Value.Encodes`** — an output on the text and one on the bytes, part by part; which characters
  and which literals may occur in it is a parameter, since a character and a literal of one
  character are the same text and become different values.
* **`Coupling.transcribing`** — the two runs.
* **`Grammar.Over.transcribed`** — the statement for whole parsers.
-/

namespace Descent

/-! ## Grammars of bytes -/

/-- The leaf for bytes that does what the leaf for characters does. -/
def Leaf.encoded : Leaf → Leaf
  | char (.exactly u) => byte (.exactly u)
  | char .any => byte .any
  | string t => slice t
  | l => l

def Terminal.encoded : Terminal → Terminal
  | leaf l => leaf l.encoded
  | char (.text [u]) => byte (.int u)
  | string (.text t) => slice (.bytes t)
  | t => t

mutual

/-- An output on bytes as that on the text: codes are characters, and bytes are texts. -/
def Value.decoded : Value → Value
  | int i => text [i.toNat]
  | bytes b => text b
  | list xs => list (decodedAll xs)
  | tuple xs => tuple (decodedAll xs)
  | span x start stop => span x.decoded start stop
  | v => v

def Value.decodedAll : List Value → List Value
  | [] => []
  | x :: xs => x.decoded :: decodedAll xs

end

/-- A grammar for texts as one for their bytes. Its callbacks see outputs as they would on the
text. -/
def Recasting.latin1 : Recasting where
  terminal := Terminal.encoded
  leaf := Leaf.encoded
  unary := some
  read := Value.decoded

section

variable (chars : Nat → Prop) (literals : Text → Prop)

/-- The leaves that do not depend on the kind of the input, and the characters and literals for
which there are bytes. -/
inductive Leaf.Latin1 : Leaf → Prop where
  | succeed : Latin1 (.succeed .null)
  | fail : Latin1 (.fail .null)
  | char {u : Nat} (hu : u ≤ 255) (h : chars u) : Latin1 (.char (.exactly u))
  | any (h : ∀ u, u ≤ 255 → chars u) : Latin1 (.char .any)
  | string {t : Text} (ht : ∀ u ∈ t, u ≤ 255) (h : literals t) : Latin1 (.string t)
  | endOfInput : Latin1 .endOfInput
  | position : Latin1 .position

/-- The operations that do not look at outputs, and the making of spans. -/
inductive Unary.Latin1 : Unary → Prop where
  | optional : Latin1 .optional
  | many {least most : Count} : Latin1 (.many least most)
  | many1 : Latin1 .many1
  | tracked : Latin1 .tracked
  | spanned : Latin1 (.map fun v => .ok (Rule.toSpan v))

/-- The grammars that can be read as grammars of bytes. -/
def Palette.latin1 : Palette where
  leaf := Leaf.Latin1 chars literals
  unary := Unary.Latin1
  fault _ := True

end

/-- Every grammar that is encoded is built or refused like the one it comes from. -/
theorem Recasting.latin1_lawful (P : Palette) (hP : ∀ u, P.leaf (.char (.exactly u)) → u ≤ 255) :
    latin1.Lawful P where
  terminal t ht := by
    cases t with
    | leaf l => rfl
    | char c =>
      cases c with
      | text t =>
        cases t with
        | nil => rfl
        | cons u t =>
          cases t with
          | cons v t => rfl
          | nil =>
            -- the code is a byte, so the byte leaf is built as well
            have hu := hP u (ht _ rfl)
            have hbyte : (Value.int u).asByte = .ok u := if_pos ⟨by omega, by omega⟩
            show (do return Leaf.byte (.exactly (← (Value.int u).asByte)) : Except Fault Leaf) = _
            rw [hbyte]
            rfl
      | _ => rfl
    | string literal => cases literal <;> rfl
    | oneOf cs =>
      show (Terminal.oneOf cs).check = _
      rw [Terminal.check]
      cases cs.mapM Value.asCharacter <;> rfl
    | noneOf cs =>
      show (Terminal.noneOf cs).check = _
      rw [Terminal.check]
      cases cs.mapM Value.asCharacter <;> rfl
    | hex case =>
      show (Terminal.hex case).check = _
      rw [Terminal.check]
      cases case.asHexCase <;> rfl
    | byte b =>
      show (Terminal.byte b).check = _
      rw [Terminal.check]
      cases b.asByte <;> rfl
    | slice literal =>
      show (Terminal.slice literal).check = _
      rw [Terminal.check]
      cases literal.asBytes <;> rfl
    | escapedWith control entries =>
      show (Terminal.escapedWith control entries).check = _
      rw [Terminal.check]
      cases control.asCharacter with
      | error f => rfl
      | ok u => cases entries.asEscapes <;> rfl
    | escapedBy control decode =>
      show (Terminal.escapedBy control decode).check = _
      rw [Terminal.check]
      cases control.asCharacter <;> rfl
  kept op op' h := by
    cases h
    rfl
  erased op h := by cases h

/-! ## Outputs and errors -/

/-- The tag of the leaf for bytes in place of that for characters. -/
def Tag.encoded : Tag → Tag
  | char => byte
  | anyChar => anyByte
  | string => slice
  | t => t

/-- An output on the text and one on the bytes. -/
inductive Value.Encodes (chars : Nat → Prop) (literals : Text → Prop) : Value → Value → Prop where
  | null : Encodes chars literals .null .null
  | char {u : Nat} (h : chars u) : Encodes chars literals (.text [u]) (.int u)
  | literal {t : Text} (h : literals t) : Encodes chars literals (.text t) (.bytes t)
  | list {xs ys : List Value} (h : List.Forall₂ (Encodes chars literals) xs ys) :
      Encodes chars literals (.list xs) (.list ys)
  | tuple {xs ys : List Value} (h : List.Forall₂ (Encodes chars literals) xs ys) :
      Encodes chars literals (.tuple xs) (.tuple ys)
  | position (p : Position) : Encodes chars literals (.position p) (.position p)
  | span {x y : Value} {start stop : Position} (h : Encodes chars literals x y) :
      Encodes chars literals (.span x start stop) (.span y start stop)

/-- An error on the text and one on the bytes. -/
inductive Value.EncodesError (chars : Nat → Prop) (literals : Text → Prop) :
    Value → Value → Prop where
  | null : EncodesError chars literals .null .null
  | tag (t : Tag) : EncodesError chars literals (.tag t) (.tag t.encoded)
  | shortfall {xs ys : List Value} (t : Tag) (h : List.Forall₂ (Encodes chars literals) xs ys) :
      EncodesError chars literals (.shortfall t xs) (.shortfall t ys)

section

variable {chars : Nat → Prop} {literals : Text → Prop} {x y : Value}

/-- The output on the bytes determines that on the text. -/
theorem Value.Encodes.decoded_eq (h : x.Encodes chars literals y) : y.decoded = x :=
  @Value.Encodes.rec chars literals (fun x y _ => y.decoded = x) (fun xs ys _ => decodedAll ys = xs)
    rfl (fun _ => rfl) (fun _ => rfl)
    (fun _ ih => by rw [decoded, ih])
    (fun _ ih => by rw [decoded, ih])
    (fun _ => rfl)
    (fun _ ih => by rw [decoded, ih])
    rfl
    (fun _ _ hx hxs => by rw [decodedAll, hx, hxs])
    x y h

/-- A span is made of the parts on both sides or on none. -/
theorem Value.Encodes.toSpan (h : x.Encodes chars literals y) :
    (Rule.toSpan x).Encodes chars literals (Rule.toSpan y) := by
  unfold Rule.toSpan
  split
  · next start v stop =>
    cases h with
    | tuple h =>
      obtain _ | ⟨hstart, _ | ⟨hv, _ | ⟨hstop, ⟨⟩⟩⟩⟩ := h
      cases hstart
      cases hstop
      exact .span hv
  · next hx =>
    split
    · next start w stop =>
      cases h with
      | tuple h =>
        obtain _ | ⟨hstart, _ | ⟨hv, _ | ⟨hstop, ⟨⟩⟩⟩⟩ := h
        cases hstart
        cases hstop
        exact absurd rfl (hx _ _ _)
    · exact h

end

/-! ## The two runs -/

/-- A text from a stream on and its bytes. -/
structure Stream.Transcribes (s₀ t₀ : Stream) : Prop extends s₀.Level t₀ where
  text : s₀.kind = .text
  bytes : t₀.kind = .bytes
  small : ∀ u ∈ s₀.rest, u ≤ 255

namespace Coupling

/-- A run on a text from `s₀` on, and one on its bytes from `t₀` on. -/
def transcribing (chars : Nat → Prop) (literals : Text → Prop) (s₀ t₀ : Stream) :
    Coupling Log Log where
  stream := s₀.Abreast t₀
  context := ContextsAbreast s₀ t₀
  output := Value.Encodes chars literals
  error := Value.EncodesError chars literals
  state _ _ := True
  halted _ _ := True
  stop := Eq
  halt h := h
  exhausted := rfl
  null := .null
  tuple := .tuple
  list := .list
  shortfall := .shortfall

variable {chars : Nat → Prop} {literals : Text → Prop} {s₀ t₀ s t : Stream} {c d : Value}

/-- The first stream is a text and the second is made of bytes, wherever they have come to. -/
theorem kinds_of_abreast (h₀ : s₀.Transcribes t₀) (hs : s₀.Abreast t₀ s t) :
    s.kind = .text ∧ t.kind = .bytes := by
  rw [Stream.kind, Stream.kind, hs.left.source, hs.right.source]
  exact ⟨h₀.text, h₀.bytes⟩

/-- One character beside one byte: the unit is the same, and so is the answer of the class. -/
theorem transcribing_unit (h₀ : s₀.Transcribes t₀) {mem : Nat → Bool} (tag : Tag)
    (hmem : ∀ u, u ≤ 255 → mem u = true → chars u) (hs : s₀.Abreast t₀ s t)
    (hc : ContextsAbreast s₀ t₀ c d) :
    (transcribing chars literals s₀ t₀).Excepts (transcribing chars literals s₀ t₀).Results
      (Leaf.matchUnit .text mem tag s c) (Leaf.matchUnit .bytes mem tag.encoded t d) := by
  have hbounds := hs.left.inBounds h₀.left
  obtain ⟨htext, hbytes⟩ := kinds_of_abreast h₀ hs
  rw [Leaf.matchUnit, Leaf.matchUnit, hbounds.peek_zero, (hs.right.inBounds h₀.right).peek_zero,
    ← hs.rest_eq h₀.toLevel, htext, hbytes]
  cases hrest : s.rest with
  | nil => exact .ok (.err hs (.tag tag) hc)
  | cons u rest =>
    show Excepts _ _ (if mem u then Except.ok (Result.ok (s.advance 1) (.text [u]) c)
        else .ok (.err s (.tag tag) c))
      (if mem u then Except.ok (Result.ok (t.advance 1) (.int u) d)
        else .ok (.err t (.tag tag.encoded) d))
    by_cases hu : mem u = true
    · rw [if_pos hu, if_pos hu]
      -- the unit comes from the source, where all units are small
      have hmember : u ∈ s₀.rest := by
        have hsuffix : s.rest <:+ s₀.rest := ⟨_, hs.left.consumedSince_append_rest h₀.left⟩
        exact hsuffix.subset (by simp [hrest])
      have hadvance := hs.advance h₀.toLevel (hbounds.leadsTo_advance (n := 1) (by simp [hrest]))
      exact .ok (.ok hadvance (.char (hmem u (h₀.small u hmember) hu)) hc)
    · rw [if_neg hu, if_neg hu]
      exact .ok (.err hs (.tag tag) hc)

/-- A given text beside its bytes, unit by unit. -/
theorem transcribing_literal (h₀ : s₀.Transcribes t₀) {literal : Text} (hliteral : literals literal)
    (hs : s₀.Abreast t₀ s t) (hc : ContextsAbreast s₀ t₀ c d) :
    (transcribing chars literals s₀ t₀).Results (Leaf.matchLiteral .text .string s c [literal])
      (Leaf.matchLiteral .bytes .slice t d [literal]) := by
  have hbounds := hs.left.inBounds h₀.left
  have hsame : s.startsWith literal = t.startsWith literal := by
    rw [Bool.eq_iff_iff, hbounds.startsWith_iff, (hs.right.inBounds h₀.right).startsWith_iff,
      hs.rest_eq h₀.toLevel]
  obtain ⟨htext, hbytes⟩ := kinds_of_abreast h₀ hs
  simp only [Leaf.matchLiteral, htext, hbytes, ← hsame, decide_true, Bool.true_and]
  split
  · next hstarts =>
    have hprefix := (hbounds.startsWith_iff literal).mp hstarts
    exact .ok (hs.advance h₀.toLevel (hbounds.leadsTo_advance hprefix.length_le))
      (.literal hliteral) hc
  · exact .err hs (.tag .string) hc

/-- The leaves of the alphabet, each beside its encoding. -/
theorem transcribing_leaf (h₀ : s₀.Transcribes t₀) {l : Leaf} (hl : Leaf.Latin1 chars literals l) :
    (transcribing chars literals s₀ t₀).Leaves l l.encoded := by
  intro s t c d hs hc
  cases hl with
  | succeed => exact .ok (.ok hs .null hc)
  | fail => exact .ok (.err hs .null hc)
  | @char u _ h =>
    have hmem (v : Nat) (_ : v ≤ 255) (hv : (CharClass.exactly u).mem v = true) : chars v := by
      obtain rfl : v = u := of_decide_eq_true hv
      exact h
    exact transcribing_unit h₀ .char hmem hs hc
  | any h => exact transcribing_unit h₀ .anyChar (fun u hu _ => h u hu) hs hc
  | string _ h => exact .ok (transcribing_literal h₀ h hs hc)
  | endOfInput =>
    -- as much is left on both sides
    have hlength : s.length = t.length := by
      rw [(hs.left.inBounds h₀.left).length_eq, (hs.right.inBounds h₀.right).length_eq,
        hs.rest_eq h₀.toLevel]
    show Excepts _ _ (s.length >>= _) (t.length >>= _)
    rw [hlength]
    cases t.length with
    | error f => exact .error rfl
    | ok n =>
      by_cases hn : n = 0
      · subst hn
        exact .ok (.ok hs .null hc)
      · show Excepts _ _ (if n = 0 then _ else _) (if n = 0 then _ else _)
        rw [if_neg hn, if_neg hn]
        exact .ok (.err hs (.tag .endOfFile) hc)
  | position =>
    show Excepts _ _ (Rule.position s c) (Rule.position t d)
    rcases hc.position_cases h₀.toLevel hs with ⟨hleft, hright⟩ | ⟨x, c', d', hleft, hright, hc'⟩
    · rw [hleft, hright]
      exact .ok (.err hs (.tag .missingPositionContext) hc)
    · rw [hleft, hright]
      exact .ok (.ok hs (.position x) hc')

/-- All that the recasting has to keep for whole grammars to be transcribed. -/
theorem transcribing_recasts (chars : Nat → Prop) (literals : Text → Prop)
    (h₀ : s₀.Transcribes t₀) :
    Recasts (fun _ : Unit => transcribing chars literals s₀ t₀) .latin1
      (.latin1 chars literals) where
  lawful := by
    refine Recasting.latin1_lawful _ fun u hu => ?_
    cases hu with
    | char hle _ => exact hle
  leaf _ _ hl := transcribing_leaf h₀ hl
  unary op hop budget p q hpq i := by
    refine Rules.unary ?_ budget (hpq i)
    cases hop with
    | optional => trivial
    | many => trivial
    | many1 => trivial
    | tracked =>
      -- both trackers start where the two streams began
      intro s t c d hs hc
      exact hc.trackedContext (fun _ => rfl) hs
    | spanned => exact fun x y hxy => .ok hxy.toSpan
  fault _ _ _ := rfl
  output _ _ _ h := h.decoded_eq

end Coupling

/-! ## Whole parsers -/

/-- The source as bytes, one for each character. -/
def Source.encoded (ident : Nat) (src : Source) : Source :=
  ⟨ident, .bytes, src.units⟩

/-- Two ends of runs on a text and on its bytes: both successes or both failures, at one offset,
with outputs or errors that are the same but for their encoding, and in contexts that differ by
where the streams of a tracker lie; or the same stop. -/
inductive EndsTranscribed (chars : Nat → Prop) (literals : Text → Prop) (s₀ t₀ : Stream) :
    Except Stop Result → Except Stop Result → Prop where
  | ok {o : Int} {x y c d : Value} (hx : x.Encodes chars literals y)
      (hc : ContextsAbreast s₀ t₀ c d) :
      EndsTranscribed chars literals s₀ t₀ (.ok (.ok ⟨s₀.source, o⟩ x c))
        (.ok (.ok ⟨t₀.source, o⟩ y d))
  | err {o : Int} {e f c d : Value} (he : e.EncodesError chars literals f)
      (hc : ContextsAbreast s₀ t₀ c d) :
      EndsTranscribed chars literals s₀ t₀ (.ok (.err ⟨s₀.source, o⟩ e c))
        (.ok (.err ⟨t₀.source, o⟩ f d))
  | stopped {e : Stop} : EndsTranscribed chars literals s₀ t₀ (.error e) (.error e)

/-- Where both streams began at one offset, they are at one offset now. -/
theorem Stream.Abreast.at_offset {s₀ t₀ s t : Stream} (h : s₀.Abreast t₀ s t)
    (hoffset : s₀.offset = t₀.offset) :
    s = ⟨s₀.source, s.offset⟩ ∧ t = ⟨t₀.source, s.offset⟩ := by
  obtain ⟨src, o⟩ := s
  obtain ⟨src', o'⟩ := t
  obtain rfl : src = s₀.source := h.left.source
  obtain rfl : src' = t₀.source := h.right.source
  have hsame : o - s₀.offset = o' - t₀.offset := h.offset
  obtain rfl : o' = o := by omega
  exact ⟨rfl, rfl⟩

/-- The coupled ends, in terms of what the two runs give back. -/
theorem Coupling.transcribing_end {chars : Nat → Prop} {literals : Text → Prop} {s₀ t₀ : Stream}
    {x y : Except Stop Result × Log}
    (h : (transcribing chars literals s₀ t₀).Ends (transcribing chars literals s₀ t₀).Results x y)
    (hoffset : s₀.offset = t₀.offset) : EndsTranscribed chars literals s₀ t₀ x.1 y.1 := by
  cases h with
  | stopped he _ =>
    obtain rfl := he
    exact .stopped
  | returned hr _ =>
    cases hr with
    | ok hs hx hc =>
      obtain ⟨hleft, hright⟩ := hs.at_offset hoffset
      rw [hleft, hright]
      exact .ok hx hc
    | err hs he hc =>
      obtain ⟨hleft, hright⟩ := hs.at_offset hoffset
      rw [hleft, hright]
      exact .err he hc

/-- A text of small characters is transcribed by its encoding, from the same offset on. -/
theorem Stream.InBounds.transcribes {src : Source} (htext : src.kind = .text)
    (hsmall : ∀ u ∈ src.units, u ≤ 255) {o : Int} (ho : (Stream.mk src o).InBounds) (ident : Nat) :
    (Stream.mk src o).Transcribes ⟨src.encoded ident, o⟩ where
  left := ho
  right := ⟨ho.nonneg, ho.le_size⟩
  rest := rfl
  text := htext
  bytes := rfl
  small u hu := by
    rw [ho.rest_eq] at hu
    exact hsmall u (Array.mem_toList_iff.mp (List.mem_of_mem_drop hu))

/-- **One grammar for texts and for their bytes.** Let a grammar be made of combinators, of null,
the end of the input and positions, and of the given characters and literals of code points up to
255, and let it stand for one of bytes. On a text of such code points, at any place of it, and on
its bytes at the same place, in a context without a tracker, both parsers end alike: with success or
with failure, at the same offset, and with outputs or errors that are the same part by part, but for
characters and their codes, literals and their bytes, and the tags of the leaves. -/
theorem Grammar.Over.transcribed {chars : Nat → Prop} {literals : Text → Prop} {rules : Rules}
    (hrules : rules.Over (.latin1 chars literals)) {g : Grammar}
    (hg : g.Over (.latin1 chars literals)) {p : Parser Factory} (hp : g.check = .ok p)
    {src : Source} (htext : src.kind = .text) (hsmall : ∀ u ∈ src.units, u ≤ 255) {o : Int}
    (ho : (Stream.mk src o).InBounds) (ident : Nat) {c : Value} (hc : c.get? .trackerKey = none)
    (budget : Nat) (log log' : Log) :
    ∃ q, (g.recast .latin1).check = .ok q ∧
      EndsTranscribed chars literals ⟨src, o⟩ ⟨src.encoded ident, o⟩
        (p.direct rules budget ⟨src, o⟩ c log).1
        (q.direct (rules.recast .latin1) budget ⟨src.encoded ident, o⟩ c log').1 := by
  have h₀ := ho.transcribes htext hsmall ident
  have hrecasts := Coupling.transcribing_recasts chars literals h₀
  refine ⟨p.recast .latin1, ?_, ?_⟩
  · rw [hg.check_recast hrecasts.lawful, hp]
    rfl
  · have hend :=
      hrecasts.direct hrules budget (hg.check hp) () h₀.abreast (.untracked hc) log log' trivial
    exact Coupling.transcribing_end hend rfl

/-- A span over two lines, with a literal and a character behind a tracker, and its bytes: `a`, a
newline and a code above 127. -/
theorem transcribed_span :
    let g : Grammar := .unary .tracked (.spanned (.serial [.string "a\n", .leaf (.char .any)]))
    let src : Source := ⟨0, .text, #[97, 10, 233]⟩
    ∃ p q, g.check = .ok p ∧ (g.recast .latin1).check = .ok q ∧
      EndsTranscribed (fun _ => True) (fun t => t = [97, 10]) ⟨src, 0⟩ ⟨src.encoded 1, 0⟩
        (p.direct (fun _ => none) 4 ⟨src, 0⟩ .emptyTable #[]).1
        (q.direct (Rules.recast .latin1 fun _ => none) 4 ⟨src.encoded 1, 0⟩ .emptyTable #[]).1 := by
  intro g src
  let P := Palette.latin1 (fun _ => True) (fun t => t = [97, 10])
  have hliteral : (Grammar.string "a\n").Over P := by
    refine .terminal fun l hl => ?_
    cases hl
    exact .string (by decide) (by decide)
  have hpair : (Grammar.serial [.string "a\n", .leaf (.char .any)]).Over P :=
    .serial
      (List.forall_mem_cons.mpr
      ⟨hliteral, List.forall_mem_singleton.mpr (.leaf (.any fun _ _ => trivial))⟩)
  have hg : g.Over P :=
    .unary .tracked (.unary .spanned (.serial (List.forall_mem_cons.mpr ⟨.leaf .position,
      List.forall_mem_cons.mpr ⟨hpair, List.forall_mem_singleton.mpr (.leaf .position)⟩⟩)))
  have hrules : Rules.Over P fun _ => none :=
    ⟨fun _ _ => nofun, fun _ _ => nofun, fun _ _ => trivial⟩
  have ho : (Stream.mk src 0).InBounds := ⟨by decide, by decide⟩
  have hc : Value.emptyTable.get? .trackerKey = none := rfl
  obtain ⟨q, hq, hend⟩ := hg.transcribed hrules rfl rfl (by decide) ho 1 hc 4 #[] #[]
  exact ⟨_, q, rfl, hq, hend⟩

end Descent
