import Descent.Proofs.Guarded
import Descent.Proofs.Json.Scans

/-!
# Descent — the JSON parser ends

The rules refer to themselves only behind a bracket, so every value inside another one is entered
further on, and its nesting is bounded by what is left to read. The loops turn as often as they
consume. A budget for both that exceeds what is left is therefore never used up, and more of it
changes nothing.

* **`rules_guarded`** — the rule for values refers to values only behind a bracket.
* **`Rule.Fails`** — a rule that fails where it stands. On bytes, where a text leaf never matches,
  all rules do.
* **`value_run_ends`** — the run of the parser for values, at any place of a text or of bytes and in
  any context, and where it enters values.
-/

namespace Descent

/-! ## Guarded grammars -/

namespace Grammar.Guarded

theorem leaf {l : Leaf} (h : ∀ run, l ≠ .custom run) : (Grammar.leaf l).Guarded := by
  refine .terminal fun l' hl => ?_
  cases hl
  exact h

theorem char (c : Char) : (Grammar.char c).Guarded := by
  refine .terminal fun l hl => ?_
  cases hl
  exact fun _ => nofun

theorem string (s : String) : (Grammar.string s).Guarded := by
  refine .terminal fun l hl => ?_
  cases hl
  exact fun _ => nofun

/-- A guarded grammar has untraced parts only. -/
theorem untraced {g : Grammar} (hg : g.Guarded) : g.Over .untraced := by
  induction hg with
  | terminal h => exact .terminal h
  | unary hop _ ih => exact .unary hop ih
  | binary _ _ ihg ihh => exact .binary ihg ihh
  | between _ _ _ iho ihc ihi => exact .between iho ihc ihi
  | serial _ ih => exact .serial ih
  | choice _ ih => exact .choice ih
  | guard hc hi => exact .between (.char fun _ => nofun) hc hi

end Grammar.Guarded

/-! ## Rules that fail -/

/-- The rule fails at the stream, in every context and without a word in the log. -/
def Rule.Fails (s : Stream) (e : Value) (p : Rule Log) : Prop :=
  ∀ c, p s c = pure (.err s e c)

namespace Rule.Fails

variable {s : Stream} {e e' : Value} {p q r : Rule Log} {ps : List (Rule Log)}

/-- A leaf for characters fails on bytes, whatever byte is there. -/
theorem char (hs : s.InBounds) (hbytes : s.isText = false) (cls : CharClass) :
    Fails s (.tag cls.tag) (Leaf.char cls).toRule := by
  intro c
  have hkind : s.kind ≠ .text := of_decide_eq_false hbytes
  rw [Leaf.toRule, Leaf.run, Leaf.matchUnit, hs.peek_zero]
  cases s.rest[0]? with
  | none => rfl
  | some u =>
    show Run.lift
        (if s.kind = .text && cls.mem u then _ else Except.ok (Result.err s (.tag cls.tag) c)) = _
    rw [if_neg (by simp [hkind])]
    rfl

/-- A given text is not found among bytes, not even the empty one. -/
theorem string (hbytes : s.isText = false) (t : Text) :
    Fails s (.tag .string) (Leaf.string t).toRule := by
  intro c
  have hkind : s.kind ≠ .text := of_decide_eq_false hbytes
  rw [Leaf.toRule, Leaf.run, Leaf.matchLiteral, if_neg (by simp [hkind])]
  rfl

theorem map (hp : Fails s e p) (f : Value → Except Fault Value) : Fails s e (p.map f) := by
  intro c
  rw [Rule.map, hp c]
  rfl

/-- An alternative fails with the error of its second part. -/
theorem orElse (hp : Fails s e p) (hq : Fails s e' q) : Fails s e' (p.orElse q) := by
  intro c
  rw [Rule.orElse, hp c]
  exact hq c

/-- A choice fails with the error of its last part. -/
theorem choice_cons (hp : Fails s e p) (hps : Fails s e' (Rule.choice q ps)) :
    Fails s e' (Rule.choice p (q :: ps)) := by
  intro c
  unfold Rule.choice
  rw [hp c]
  exact hps c

theorem between (hp : Fails s e p) : Fails s e (Rule.between p q r) := by
  intro c
  rw [Rule.between, hp c]
  rfl

/-- Without a first repetition the failure is that of the part. -/
theorem many1 (hp : Fails s e p) (budget : Nat) : Fails s e (Rule.many1 budget p) := by
  intro c
  rw [Rule.many1, hp c]
  rfl

/-- What may be missing is passed over, and the failure is that of what follows. -/
theorem serial_optional (hp : Fails s e p) (hq : Fails s e' q) (ps : List (Rule Log)) :
    Fails s e' (Rule.serial (p.optional :: q :: ps)) := by
  intro c
  have hoptional : p.optional s c = pure (.ok s .null c) := by
    rw [Rule.optional, hp c]
    rfl
  rw [Rule.serial]
  unfold Rule.serialOnto
  rw [hoptional]
  show Rule.serialOnto [.null] (q :: ps) s c = _
  unfold Rule.serialOnto
  rw [hq c]
  rfl

/-- Bytes have no blanks to skip. -/
theorem trimmed (hbytes : s.isText = false) (hp : Fails s e p) : Fails s e (Rule.trimmed p) := by
  intro c
  have hstay : s.skipBlanks = .ok s := by
    rw [Stream.skipBlanks, if_neg (by rw [hbytes]; exact Bool.false_ne_true)]
    rfl
  rw [Rule.trimmed, hstay]
  exact hp c

end Rule.Fails

namespace Json

/-! ## The rules are guarded -/

theorem guarded_word (s : String) (v : Value) : (word s v).Guarded :=
  .unary ⟨fun _ => nofun, fun _ => nofun⟩ (.string s)

theorem guarded_digits : digits.Guarded :=
  .unary ⟨fun _ => nofun, fun _ => nofun⟩
    (.unary ⟨fun _ => nofun, fun _ => nofun⟩ (.leaf fun _ => nofun))

theorem guarded_numeral : numeral.Guarded := by
  have hsign : (Grammar.optional (.char '-')).Guarded :=
    .unary ⟨fun _ => nofun, fun _ => nofun⟩ (.char '-')
  have hfraction : (Grammar.optional (.keepRight (.char '.') digits)).Guarded :=
    .unary ⟨fun _ => nofun, fun _ => nofun⟩ (.binary (.char '.') guarded_digits)
  exact .unary ⟨fun _ => nofun, fun _ => nofun⟩
    (.serial (List.forall_mem_cons.mpr ⟨hsign, List.forall_mem_cons.mpr
      ⟨guarded_digits, List.forall_mem_singleton.mpr hfraction⟩⟩))

theorem guarded_string : string.Guarded := by
  have hsimple : simpleEscape.Guarded := by
    refine .terminal fun l hl => ?_
    cases hl
    exact fun _ => nofun
  have hunicode : unicodeEscape.Guarded :=
    .unary ⟨fun _ => nofun, fun _ => nofun⟩
      (.binary (.string _) (.unary ⟨fun _ => nofun, fun _ => nofun⟩ (.leaf fun _ => nofun)))
  have hcharacter :
      (Grammar.choice [.leaf (.char (.noneOf [34, 92])), simpleEscape, unicodeEscape]).Guarded :=
    .choice (List.forall_mem_cons.mpr ⟨.leaf fun _ => nofun, List.forall_mem_cons.mpr
      ⟨hsimple, List.forall_mem_singleton.mpr hunicode⟩⟩)
  exact .unary ⟨fun _ => nofun, fun _ => nofun⟩
    (.between (.char '"') (.char '"') (.unary ⟨fun _ => nofun, fun _ => nofun⟩ hcharacter))

/-- Behind the opening bracket any items may stand. -/
theorem guarded_bracketed (opening closing : Char) {item : Grammar} (hitem : item.Over .untraced) :
    (bracketed opening closing item).Guarded := by
  have hchar (c : Char) : (Grammar.trimmed (.char c)).Over .untraced :=
    .unary ⟨fun _ => nofun, fun _ => nofun⟩ (.char fun _ => nofun)
  exact .guard (hchar closing) (.unary ⟨fun _ => nofun, fun _ => nofun⟩ (.binary (hchar ',') hitem))

/-- A property refers to values, with no trace in front of them. -/
theorem over_property : property.Over .untraced := by
  have hkey : (Grammar.trimmed string).Over .untraced :=
    .unary ⟨fun _ => nofun, fun _ => nofun⟩ guarded_string.untraced
  have hcolon : (Grammar.trimmed (.char ':')).Over .untraced :=
    .unary ⟨fun _ => nofun, fun _ => nofun⟩ (.char fun _ => nofun)
  exact .unary ⟨fun _ => nofun, fun _ => nofun⟩
    (.serial (List.forall_mem_cons.mpr ⟨hkey, List.forall_mem_cons.mpr
      ⟨hcolon, List.forall_mem_singleton.mpr .ref⟩⟩))

/-- Of the alternatives, objects and arrays alone refer to values, and each behind its bracket. -/
theorem guarded_valueRule : valueRule.Guarded := by
  have hboolean : boolean.Guarded := .binary (guarded_word _ _) (guarded_word _ _)
  have hobject : object.Guarded :=
    .unary ⟨fun _ => nofun, fun _ => nofun⟩ (guarded_bracketed _ _ over_property)
  have harray : array.Guarded := guarded_bracketed _ _ .ref
  refine .unary ⟨fun _ => nofun, fun _ => nofun⟩ (.choice ?_)
  simp only [List.forall_mem_cons]
  exact ⟨hboolean, guarded_word _ _, guarded_string, hobject, guarded_numeral, harray, nofun⟩

/-- There is one named rule. -/
theorem eq_of_rules {name : Text} {g : Grammar} (h : rules name = some g) : g = valueRule := by
  rw [rules] at h
  split at h
  · cases h
    rfl
  · cases h

/-- So every named rule is guarded. -/
theorem rules_guarded : rules.Guarded where
  untraced := by
    refine ⟨fun name g h => ?_, fun _ _ _ _ _ => trivial, fun _ _ => trivial⟩
    rw [eq_of_rules h]
    exact guarded_valueRule.untraced
  guarded name g h := by
    rw [eq_of_rules h]
    exact guarded_valueRule

/-- The rules have no trace to be taken out. -/
theorem recast_rules : rules.recast .untraced = rules := by
  funext name
  rw [Rules.recast, rules]
  split
  · rfl
  · rfl

/-! ## Bytes -/

/-- On bytes all alternatives fail, and the failure that counts is that of the array. -/
theorem fails_valueRule {p : Parser Factory} (hp : valueRule.check = .ok p) {s : Stream}
    (hs : s.InBounds) (hbytes : s.isText = false) (host : Host Log Factory) (budget : Nat) :
    Rule.Fails s (.tag .char) (p.toRule host budget) := by
  have hchar := Rule.Fails.char hs hbytes
  have hword (t : Text) (f : Value → Except Fault Value) := (Rule.Fails.string hbytes t).map f
  have hbracket (c : Char) (q r : Rule Log) := (hchar (.exactly c.toNat)).between (q := q) (r := r)
  have hnumeral (f : Value → Except Fault Value) (ps : List (Rule Log)) :=
    ((hchar (.exactly 45)).serial_optional (((hchar .digit).many1 budget).map Value.join) ps).map f
  cases hp
  refine .trimmed hbytes
    (.choice_cons (.orElse (hword _ _) (hword _ _)) (.choice_cons (hword _ _) (.choice_cons
    ((hbracket '"' _ _).map _)
      (.choice_cons ((hbracket '\x7b' _ _).map _) (.choice_cons (hnumeral _ _) ?_)))))
  exact hbracket '[' _ _

/-! ## The parser -/

/-- With a budget beyond what is left, the run is one and the same, and ends with a result or with a
fault. -/
theorem direct_value_settles {p : Parser Factory} (hp : value.check = .ok p) {s : Stream}
    (hs : s.InBounds) (c : Value) :
    ∃ x : Except Fault Result, ∀ budget, s.rest.length + 3 ≤ budget →
      p.direct rules budget s c = Run.lift x := by
  cases htext : s.isText with
  | true =>
    refine ⟨(scanValue (s.rest.length + 1) s.rest).map (Scanned.result s.source id c),
      fun budget hbudget => ?_⟩
    have hrun := direct_value_eq (of_decide_eq_true htext) hp hs.rest_suffix hbudget c
    rwa [hs.leaving_rest] at hrun
  | false =>
    -- on bytes every alternative fails in place, whatever the budget
    refine ⟨.ok (.err s (.tag .char) c), fun budget hbudget => ?_⟩
    obtain ⟨budget, rfl⟩ : ∃ b, budget = b + 2 := ⟨budget - 2, by omega⟩
    obtain ⟨q, hq⟩ : ∃ q, valueRule.check = .ok q := ⟨_, rfl⟩
    cases hp
    rw [Parser.direct, Parser.toRule, enter_value hq]
    exact fails_valueRule hq hs htext _ budget c

/-- **The parser for values ends.** At any place of a text or of bytes and in any context, there is
one end, a result or a fault, which every budget beyond what is left to read leads to; the reference
and the rule itself take two of the budget, so that every loop inside may turn once more than there
are units. Moreover, with the entries to the rule for values traced, and whatever the budget, the
run ends as it does without the traces, and each entry happens at a larger offset than all entries
that are open at that moment; of these there are at most as many as units to read. -/
theorem value_run_ends {p : Parser Factory} (hp : value.check = .ok p) {s : Stream}
    (hs : s.InBounds) (c : Value) :
    (∃ x : Except Fault Result, ∀ budget, s.rest.length + 3 ≤ budget →
      p.direct rules budget s c = Run.lift x) ∧
    ∀ budget log, (p.direct rules.traced budget s c log).1 = (p.direct rules budget s c log).1 ∧
      ∃ events, (p.direct rules.traced budget s c log).2.toList = log.toList ++ events ∧
        ∀ past label (offset : Int) ahead, past ++ [.trying label offset ahead] <+: events →
          ∃ attempts, openAfter past = some attempts ∧ (∀ a ∈ attempts, a.offset < offset) ∧
            attempts.length ≤ s.rest.length := by
  refine ⟨direct_value_settles hp hs c, fun budget log => ?_⟩
  have hover : p.Over .untraced := by
    cases hp
    exact .named
  have hrecast : p.recast .untraced = p := by
    cases hp
    rfl
  obtain ⟨hsame, events, hlog, hascends⟩ := rules_guarded.ascends hover hs c budget log log
  rw [hrecast, recast_rules] at hsame
  refine ⟨(congrArg Prod.fst hsame).symm, events, hlog, fun past label offset ahead hprefix => ?_⟩
  obtain ⟨hsize, attempts, hopen, hprecede⟩ := hascends past label offset ahead hprefix
  refine ⟨attempts, hopen, hprecede.before, ?_⟩
  -- every open entry has left at least one unit behind
  have hlen := hs.length_rest
  have hle := hprecede.length_le
  omega

/-- An array in an array, and its bytes: both ends are reached with a budget of seven. -/
theorem value_run_ends_nested :
    let src : Source := ⟨0, .text, #[91, 91, 93, 93]⟩
    let p : Parser Factory := .deferred (.named valueName)
    (∃ x : Except Fault Result, ∀ budget, 7 ≤ budget →
      p.direct rules budget ⟨src, 0⟩ .null = Run.lift x) ∧
    (∃ x : Except Fault Result, ∀ budget, 7 ≤ budget →
      p.direct rules budget ⟨{ src with kind := .bytes }, 0⟩ .null = Run.lift x) ∧
    (p.direct rules.traced 7 ⟨src, 0⟩ .null #[]).1 = (p.direct rules 7 ⟨src, 0⟩ .null #[]).1 := by
  intro src p
  have htext := value_run_ends (p := p) rfl (s := ⟨src, 0⟩) ⟨by decide, by decide⟩ .null
  have hbytes :=
    value_run_ends (p := p) rfl (s := ⟨{ src with kind := .bytes }, 0⟩) ⟨by decide, by decide⟩ .null
  exact ⟨htext.1, hbytes.1, (htext.2 7 #[]).1⟩

end Json

end Descent
