import Descent.Prelude.Callback
import Descent.Proofs.Matching
import Descent.Proofs.Tallies
import Descent.Proofs.Json.Dictionary

/-!
# Descent — two ways to read an escape

An escape is a control character with a character behind it that stands for something. What it
stands for is given by a table, or by a function that may answer with null. The function may look
the character up in the same table, and then the two parsers must agree, although one looks the
character up before it knows that there is one, and the other measures the stream first.

* **`Stream.escaped?`** — the character behind the control character. Both parsers are functions of
  it.
* **`Value.asEscapes_eq`** — the table that a list of entries makes gives each character its last
  value.
* **`Terminal.escapes_agree`** — the statement for parsers.
-/

namespace Descent

/-! ## Looking a key up

In a dictionary every key stands once, so it makes no difference from which end it is searched. -/

namespace Json

variable {ps : List (Text × Value)} {t : Text} {v : Value}

/-- An entry of the dictionary is the last pair of its key. -/
theorem mem_dictionary : (Value.text t, v) ∈ dictionary ps ↔ ps.reverse.lookup t = some v := by
  rw [dictionary_eq, entriesFor, List.mem_filterMap]
  constructor
  · intro h
    obtain ⟨k, _, hk⟩ := h
    obtain ⟨w, hw, hentry⟩ := Option.map_eq_some_iff.mp hk
    cases hentry
    exact hw
  · intro h
    refine ⟨t, ?_, by rw [h]; rfl⟩
    -- a key that is not among the properties has no value
    by_contra hnot
    have hnone : ps.reverse.lookup t = none := by
      rw [List.lookup_eq_none_iff]
      intro p hp
      refine bne_iff_ne.mpr fun heq => hnot ?_
      rw [heq, List.mem_eraseDups]
      exact List.mem_map_of_mem (List.mem_reverse.mp hp)
    rw [hnone] at h
    cases h

/-- To look a key up is to search the pairs from their end. -/
theorem get?_dictionary (ps : List (Text × Value)) (t : Text) :
    Table.get? (.text t) (dictionary ps) = ps.reverse.lookup t := by
  induction ps using List.reverseRecOn with
  | nil => rfl
  | append_singleton ps p ih =>
    rw [← insert_dictionary, Table.get?_insert_text, ih, List.reverse_append,
      List.reverse_singleton, List.singleton_append, List.lookup_cons]
    by_cases ht : t = p.1
    · rw [if_pos ht, beq_iff_eq.mpr ht]
    · rw [if_neg ht, beq_eq_false_iff_ne.mpr ht]

/-- The table that is made of the pairs one by one has the entries of the dictionary. -/
theorem ofEntries_properties (ps : List (Text × Value)) :
    Table.ofEntries (ps.map toEntry) = dictionary ps := by
  induction ps using List.reverseRecOn with
  | nil => rfl
  | append_singleton ps p ih =>
    rw [← insert_dictionary, ← ih, List.map_append, Table.ofEntries, List.foldl_append]
    rfl

end Json

/-- Entries that are just the values of a function give these values back. -/
theorem Leaf.meaningOf?_eq {entries : List (Nat × Value)} {meaning : Nat → Option Value}
    (h : ∀ k v, (k, v) ∈ entries ↔ meaning k = some v) (k : Nat) :
    meaningOf? k entries = meaning k := by
  unfold meaningOf?
  cases hfind : entries.reverse.find? fun e => e.1 = k with
  | none =>
    cases hmeaning : meaning k with
    | none => rfl
    | some v =>
      -- an entry with a meaning would have been found
      have hmem := List.mem_reverse.mpr ((h k v).mpr hmeaning)
      exact absurd (decide_eq_true rfl) (List.find?_eq_none.mp hfind _ hmem)
  | some e =>
    have hkey : e.1 = k := by simpa using List.find?_some hfind
    have hmem := List.mem_reverse.mp (List.mem_of_find?_eq_some hfind)
    rw [← hkey]
    exact ((h e.1 e.2).mp hmem).symm

/-! ## Tables of escapes -/

/-- A character and its value, as a property. -/
def escapeProperty (e : Nat × Value) : Text × Value :=
  ([e.1], e.2)

/-- A list of pairs of characters and values. -/
def Value.ofEscapes (es : List (Nat × Value)) : Value :=
  .list (es.map fun e => .tuple [.text [e.1], e.2])

/-- The keys are told apart as one-character texts just as they are as characters. -/
theorem lookup_escapeProperty (es : List (Nat × Value)) (k : Nat) :
    (es.map escapeProperty).reverse.lookup [k] = es.reverse.lookup k := by
  rw [← List.map_reverse]
  induction es.reverse with
  | nil => rfl
  | cons e es ih =>
    rw [List.map_cons, List.lookup_cons, List.lookup_cons, ih]
    have hkey : ([k] == (escapeProperty e).1) = (k == e.1) := by
      rw [Bool.eq_iff_iff, beq_iff_eq, beq_iff_eq]
      exact List.singleton_inj
    rw [hkey]
    rfl

/-- Keys of one character each are accepted as they are. -/
theorem mapM_asCharacter_keys {table : Table.Entries} (h : ∀ e ∈ table, ∃ k, e.1 = .text [k]) :
    ∃ entries : List (Nat × Value),
      (table.mapM fun e => do return (← e.1.asCharacter, e.2) : Except Fault _) = .ok entries ∧
      table = entries.map fun e => (.text [e.1], e.2) := by
  induction table with
  | nil => exact ⟨[], rfl, rfl⟩
  | cons e table ih =>
    obtain ⟨k, hk⟩ := h e List.mem_cons_self
    obtain ⟨entries, hentries, htable⟩ := ih fun e' he' => h e' (List.mem_cons_of_mem e he')
    refine ⟨(k, e.2) :: entries, ?_, ?_⟩
    · rw [List.mapM_cons, hentries, hk]
      rfl
    · rw [List.map_cons, ← htable, ← hk]

/-- A list of entries can be used as a table of escapes, and each character has the last value that
is given to it. -/
theorem Value.asEscapes_eq (es : List (Nat × Value)) :
    ∃ entries, (ofEscapes es).asEscapes = .ok entries ∧ ∀ k, Leaf.meaningOf? k entries =
      es.reverse.lookup k := by
  have htable : (ofEscapes es).toEntries = .ok (Json.dictionary (es.map escapeProperty)) := by
    have hlist : ofEscapes es = .list ((es.map escapeProperty).map Json.encodeProperty) := by
      rw [List.map_map]
      rfl
    rw [hlist]
    exact Json.toEntries_properties _
  -- every key comes from an entry, so it is a text of one character
  have hkeys : ∀ e ∈ Json.dictionary (es.map escapeProperty), ∃ k, e.1 = .text [k] := by
    intro e he
    rw [Json.dictionary_eq, Json.entriesFor, List.mem_filterMap] at he
    obtain ⟨t, ht, he⟩ := he
    obtain ⟨v, _, hentry⟩ := Option.map_eq_some_iff.mp he
    obtain ⟨p, hp, hpt⟩ := List.mem_map.mp (List.mem_eraseDups.mp ht)
    obtain ⟨e', _, he'⟩ := List.mem_map.mp hp
    refine ⟨e'.1, ?_⟩
    rw [← hentry, ← hpt, ← he']
    rfl
  obtain ⟨entries, hentries, hsame⟩ := mapM_asCharacter_keys hkeys
  refine ⟨entries, ?_, Leaf.meaningOf?_eq fun k v => ?_⟩
  · rw [asEscapes, htable]
    exact hentries
  · rw [← lookup_escapeProperty, ← Json.mem_dictionary, hsame, List.mem_map]
    constructor
    · intro hmem
      exact ⟨(k, v), hmem, rfl⟩
    · intro h
      obtain ⟨e, hmem, he⟩ := h
      cases he
      exact hmem

/-- Looking a character up in the table of the same entries. -/
theorem Decoding.apply_table (es : List (Nat × Value)) (k : Nat) :
    (Decoding.table (es.map fun e => (.text [e.1], e.2))).apply (.text [k]) =
      .ok ((es.reverse.lookup k).getD .null) := by
  have hentries : (es.map fun e => (Value.text [e.1], e.2)) =
      (es.map escapeProperty).map Json.toEntry := by
    rw [List.map_map]
    rfl
  rw [apply, hentries, Json.ofEntries_properties, Json.get?_dictionary, lookup_escapeProperty]

/-! ## The two leaves -/

/-- The character that the control character escapes, in a text. -/
def Stream.escaped? (control : Nat) (s : Stream) : Option Nat :=
  if s.isText then
    match s.rest with
    | u :: k :: _ => if u = control then some k else none
    | _ => none
  else none

/-- There is an escape where the control stands in front of one more character, in a text. -/
theorem Stream.escaped?_eq_some {control : Nat} {s : Stream} {k : Nat} :
    s.escaped? control = some k ↔ s.kind = .text ∧ ∃ r, s.rest = control :: k :: r := by
  have htext : s.isText = true ↔ s.kind = .text := decide_eq_true_iff
  unfold escaped?
  constructor
  · intro h
    split at h
    · next hkind =>
      split at h
      · next u k' r hrest =>
        split at h
        · next hu =>
          cases h
          exact ⟨htext.mp hkind, r, by rw [hrest, hu]⟩
        · cases h
      · cases h
    · cases h
  · intro h
    obtain ⟨hkind, r, hrest⟩ := h
    rw [if_pos (htext.mpr hkind), hrest]
    exact if_pos rfl

/-- An escape that stands for a value, or for nothing. -/
def Result.ofEscape (s : Stream) (tag : Tag) (c : Value) : Option Value → Result
  | some v => .ok (s.advance 2) v c
  | none => .err s (.tag tag) c

namespace Leaf

variable {control : Nat} {s : Stream} {meaning : Nat → Option Value}

/-- What the leaves look at: there is an escape, or no control character, or one at the very end. -/
inductive EscapeCases (control : Nat) (s : Stream) : Option Nat → Prop where
  | escape (k : Nat) (hkind : s.kind = .text) (hcontrol : atControl control s = .ok true)
      (hnext : s.peek 1 = .ok (some k)) (hlength : 2 ≤ s.rest.length) :
        EscapeCases control s (some k)
  | other (hcontrol : atControl control s = .ok false) : EscapeCases control s none
  | last (hcontrol : atControl control s = .ok true) (hnext : s.peek 1 = .ok none)
      (hlength : s.rest.length < 2) :
      EscapeCases control s none

/-- Looking for an escape has one of these outcomes. -/
theorem escapeCases (hs : s.InBounds) (control : Nat) :
    EscapeCases control s (s.escaped? control) := by
  have hcontrol : atControl control s = .ok (s.isText && s.rest[0]? = some control) := by
    rw [atControl, hs.peek_zero]
    rfl
  have hnext := hs.peek_one
  unfold Stream.escaped?
  by_cases htext : s.isText = true
  · rw [htext, Bool.true_and] at hcontrol
    rw [if_pos htext]
    cases hrest : s.rest with
    | nil =>
      rw [hrest] at hcontrol
      exact .other hcontrol
    | cons u r =>
      rw [hrest] at hcontrol hnext
      by_cases hu : u = control
      · have hhere : decide ((u :: r)[0]? = some control) = true :=
          decide_eq_true (congrArg some hu)
        rw [hhere] at hcontrol
        -- behind the control character the text may end
        cases r with
        | nil => exact .last hcontrol hnext (by rw [hrest]; exact Nat.one_lt_two)
        | cons k r =>
          show EscapeCases control s (if u = control then some k else none)
          rw [if_pos hu]
          exact .escape k (of_decide_eq_true htext) hcontrol hnext
            (by rw [hrest]; exact Nat.le_add_left 2 r.length)
      · have hother : decide ((u :: r)[0]? = some control) = false :=
          decide_eq_false fun h => hu (Option.some.inj h)
        rw [hother] at hcontrol
        cases r with
        | nil => exact .other hcontrol
        | cons k r =>
          show EscapeCases control s (if u = control then some k else none)
          rw [if_neg hu]
          exact .other hcontrol
  · rw [Bool.eq_false_iff.mpr htext, Bool.false_and] at hcontrol
    rw [if_neg htext]
    exact .other hcontrol

/-- The parser with a table of pairs is determined by what the characters mean in it. -/
theorem matchEntry_eq (hs : s.InBounds) {entries : List (Nat × Value)}
    (hmeaning : ∀ k, meaningOf? k entries = meaning k) (c : Value) :
    matchEntry control entries s c =
      .ok (.ofEscape s .escapedWith c ((s.escaped? control).bind meaning)) := by
  unfold matchEntry
  have hcases := escapeCases hs control
  generalize s.escaped? control = escaped at hcases ⊢
  cases hcases with
  | escape k hkind hcontrol hnext hlength =>
    simp only [hcontrol, hnext, ok_bind, if_true, Option.bind_some, hmeaning]
    cases meaning k with
    | none => rfl
    | some v => rfl
  | other hcontrol =>
    rw [hcontrol]
    rfl
  | last hcontrol hnext hlength =>
    rw [hcontrol, hnext]
    rfl

/-- The parser with a function is determined by what the function gives for single characters, where
null counts as no meaning. -/
theorem matchDecoded_eq (hs : s.InBounds) (hsize : s.source.size ≤ maxWord)
    {decode : Value → Except Fault Value}
    (hdecode : ∀ k, decode (.text [k]) = .ok ((meaning k).getD .null))
    (hmeaning : ∀ k, meaning k ≠ some .null) (c : Value) :
    matchDecoded control decode s c =
      .ok (.ofEscape s .escapedBy c ((s.escaped? control).bind meaning)) := by
  have hmeasure : s.length = .ok s.rest.length := by
    have hlength := hs.length_rest
    have hnonneg := hs.nonneg
    rw [hs.length_eq, if_neg (by omega)]
  unfold matchDecoded
  rw [hmeasure, ok_bind]
  have hcases := escapeCases hs control
  generalize s.escaped? control = escaped at hcases ⊢
  cases hcases with
  | escape k hkind hcontrol hnext hlength =>
    have hanswer : decode (.ofUnit s.kind k) = .ok ((meaning k).getD .null) := by
      rw [hkind]
      exact hdecode k
    rw [if_neg (by omega)]
    simp only [hcontrol, hnext, hanswer, ok_bind, Bool.not_true, Bool.false_eq_true, if_false,
      Option.bind_some]
    cases hvalue : meaning k with
    | none => rfl
    | some v =>
      -- the value is not null, so it is not taken for an answer of nothing
      cases v with
      | null => exact absurd hvalue (hmeaning k)
      | _ => rfl
  | other hcontrol =>
    rw [hcontrol, ok_bind]
    split
    · rfl
    · rfl
  | last hcontrol hnext hlength =>
    rw [if_pos (by omega)]
    rfl

end Leaf

theorem Result.ofEscape_eq_ok {s u : Stream} {tag : Tag} {c d x : Value} {o : Option Value} :
    ofEscape s tag c o = .ok u x d ↔ o = some x ∧ u = s.advance 2 ∧ d = c := by
  constructor
  · intro h
    cases o with
    | none => cases h
    | some v =>
      cases h
      exact ⟨rfl, rfl, rfl⟩
  · intro h
    obtain ⟨ho, hu, hd⟩ := h
    rw [ho, hu, hd]
    rfl

/-- **The two escape parsers agree.** Let a list of entries give characters their values, the last
one if there are several, and let no such value be null. Then an escape can be read by the table of
the entries or by looking the character up in it. At every stream inside its source, which is text
or bytes and no larger than a source can be, and in every context, the first parser succeeds exactly
if the control character stands there in a text with a character behind it that has a value; the
output is this value, two characters are consumed, and the context is as it was. The second parser
succeeds in the same cases and with the same result. Otherwise both fail where they are, each with
its own tag. -/
theorem Terminal.escapes_agree (rules : Rules) (control : Nat) {es : List (Nat × Value)}
    (heffective : ∀ k, es.reverse.lookup k ≠ some .null) {s : Stream} (hs : s.InBounds)
    (hsize : s.source.size ≤ maxWord) (c : Value) :
    ∃ p q, (Grammar.terminal (.escapedWith (.text [control]) (.ofEscapes es))).check = .ok p ∧
      (Grammar.terminal (.escapedBy (.text [control])
        (Decoding.table (es.map fun e => (.text [e.1], e.2))).apply)).check = .ok q ∧
      (∀ u x d, p.Ends rules s c (.ok (.ok u x d)) ↔
        (s.kind = .text ∧ ∃ k r, s.rest = control :: k :: r ∧ es.reverse.lookup k = some x) ∧
          u = s.advance 2 ∧ d = c) ∧
      (∀ u x d, q.Ends rules s c (.ok (.ok u x d)) ↔ p.Ends rules s c (.ok (.ok u x d))) ∧
      (¬ p.Succeeds rules s c → p.Ends rules s c (.ok (.err s (.tag .escapedWith) c)) ∧
        q.Ends rules s c (.ok (.err s (.tag .escapedBy) c))) := by
  obtain ⟨entries, hentries, hmeaning⟩ := Value.asEscapes_eq es
  let decode : Value → Except Fault Value :=
    (Decoding.table (es.map fun e => (.text [e.1], e.2))).apply
  let meaning (k : Nat) : Option Value := es.reverse.lookup k
  -- both parsers are functions of this value alone
  let o : Option Value := (s.escaped? control).bind meaning
  have hwith {r : Result} : (Parser.leaf (.escapedWith control entries)).Ends rules s c (.ok r) ↔
      Result.ofEscape s .escapedWith c o = r := by
    rw [Parser.ends_leaf]
    show Leaf.matchEntry control entries s c = .ok r ↔ _
    rw [Leaf.matchEntry_eq hs hmeaning, Except.ok.injEq]
  have hby {r : Result} : (Parser.leaf (.escapedBy control decode)).Ends rules s c (.ok r) ↔
      Result.ofEscape s .escapedBy c o = r := by
    rw [Parser.ends_leaf]
    show Leaf.matchDecoded control decode s c = .ok r ↔ _
    rw [Leaf.matchDecoded_eq hs hsize (Decoding.apply_table es) heffective, Except.ok.injEq]
  have hvalue {x : Value} : o = some x ↔
      s.kind = .text ∧ ∃ k r, s.rest = control :: k :: r ∧ es.reverse.lookup k = some x := by
    rw [Option.bind_eq_some_iff]
    constructor
    · intro h
      obtain ⟨k, hk, hx⟩ := h
      obtain ⟨hkind, r, hrest⟩ := Stream.escaped?_eq_some.mp hk
      exact ⟨hkind, k, r, hrest, hx⟩
    · intro h
      obtain ⟨hkind, k, r, hrest, hx⟩ := h
      exact ⟨k, Stream.escaped?_eq_some.mpr ⟨hkind, r, hrest⟩, hx⟩
  refine ⟨.leaf (.escapedWith control entries), .leaf (.escapedBy control decode), ?_,
    rfl, ?_, ?_, ?_⟩
  · rw [Grammar.check, Terminal.check, hentries]
    rfl
  · intro u x d
    rw [hwith, Result.ofEscape_eq_ok, hvalue]
  · intro u x d
    rw [hwith, hby, Result.ofEscape_eq_ok, Result.ofEscape_eq_ok]
  · intro hfails
    -- a value would be a success
    have hnone : o = none := by
      cases ho : o with
      | none => rfl
      | some x =>
        exact absurd ⟨_, x, c, hwith.mpr (Result.ofEscape_eq_ok.mpr ⟨ho, rfl, rfl⟩)⟩ hfails
    rw [hwith, hby, hnone]
    exact ⟨rfl, rfl⟩

/-- The control character is a key itself and stands twice, and the other key has two values, of
which the last one is the number zero. -/
theorem Terminal.escapes_agree_repeated :
    let es : List (Nat × Value) := [(110, .text [10]), (92, .bool false), (110, .int 0)]
    let src : Source := ⟨0, .text, #[92, 92, 110]⟩
    let rules : Rules := fun _ => none
    ∃ p q, (Grammar.terminal (.escapedWith (.text [92]) (.ofEscapes es))).check = .ok p ∧
      (Grammar.terminal (.escapedBy (.text [92])
        (Decoding.table (es.map fun e => (.text [e.1], e.2))).apply)).check = .ok q ∧
      q.Ends rules ⟨src, 0⟩ .null (.ok (.ok ⟨src, 2⟩ (.bool false) .null)) ∧
      p.Ends rules ⟨src, 1⟩ .null (.ok (.ok ⟨src, 3⟩ (.int 0) .null)) := by
  intro es src rules
  have heffective : ∀ k, es.reverse.lookup k ≠ some .null := by
    intro k
    simp only [es, List.reverse_cons, List.reverse_nil, List.nil_append, List.cons_append,
      List.lookup_cons]
    cases k == 110 <;> cases k == 92 <;> exact nofun
  have hfirst : (⟨src, 0⟩ : Stream).InBounds := ⟨by decide, by decide⟩
  have hsecond : (⟨src, 1⟩ : Stream).InBounds := ⟨by decide, by decide⟩
  obtain ⟨p, q, hp, hq, hwith, hby, _⟩ := escapes_agree rules 92 heffective hfirst (by decide) .null
  obtain ⟨p', _, hp', _, hwith', _, _⟩ :=
    escapes_agree rules 92 heffective hsecond (by decide) .null
  have hsame : p' = p := Except.ok.inj (hp'.symm.trans hp)
  subst hsame
  refine ⟨p', q, hp, hq, ?_, ?_⟩
  · exact (hby _ _ _).mpr ((hwith _ _ _).mpr ⟨⟨rfl, 92, [110], rfl, rfl⟩, rfl, rfl⟩)
  · exact (hwith' _ _ _).mpr ⟨⟨rfl, 110, [], rfl, rfl⟩, rfl, rfl⟩

end Descent
