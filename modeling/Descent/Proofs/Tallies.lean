import Descent.Proofs.BuiltOnce
import Descent.Proofs.Follows
import Descent.Proofs.Tracking
import Descent.Tally

/-!
# Descent — the tally counts what it collects

The digits between the brackets are collected one by one, and each success of a digit adds one to
its entry in the context. An attempt that fails behind a comma adds nothing, and a failure at the
closing bracket takes nothing back.

* **`listedDigits`** — the digits at the front of a text, as far as commas link them; what they are
  written as is the longest such text in front (`isPrefix_listedDigits`).
* **`countAll`** — the context after all of them, or the fault of one that is not there; `Counted`
  says what it holds.
* **`separatedFrom_counted`** — the loop collects these digits and counts them.
* **`counter_run`** — how the parser ends, and that earlier calls make no difference.
-/

namespace Descent

/-! ## Tables with a key that is a text -/

/-- Of all values only a text is the same as a text. -/
theorem Value.same_text_iff {v : Value} {t : Text} : v.same (.text t) = true ↔ v = .text t := by
  cases v <;> simp [Value.same, Value.sameNaN, Value.equal, Value.equalNumber, Value.integer?]

/-- And the other way round, as a lookup compares in this order. -/
theorem Value.text_same_iff {v : Value} {t : Text} :
    (Value.text t).same v = true ↔ v = .text t := by
  cases v <;>
    simp [Value.same, Value.sameNaN, Value.equal, Value.equalNumber, Value.integer?, eq_comm]

namespace Table

variable {key v : Value} {t : Text}

/-- An entry for a text leaves what is found for other keys. -/
theorem get?_insert_of_ne (hkey : key ≠ .text t) (v : Value) (entries : Entries) :
    get? key (insert (.text t) v entries) = get? key entries := by
  have hother : (Value.text t).same key ≠ true := fun h => hkey (Value.text_same_iff.mp h)
  induction entries with
  | nil => exact if_neg hother
  | cons entry entries ih =>
    obtain ⟨k, w⟩ := entry
    rw [insert]
    split
    · next hk =>
      -- the entry that is replaced has the text itself as its key, which is not the one looked for
      rw [Value.same_text_iff.mp hk, get?, get?, if_neg hother, if_neg hother]
    · rw [get?, get?, ih]

/-- One key that is a text is put, and the others are as they were. -/
theorem get?_insert_text (t t' : Text) (v : Value) (entries : Entries) :
    get? (.text t') (insert (.text t) v entries) = if t' = t then some v else get?
      (.text t') entries := by
  split
  · next h => rw [h, get?_insert_self (Value.same_text_iff.mpr rfl)]
  · next h => rw [get?_insert_of_ne (by simpa using h)]

/-- To overwrite an entry adds no key and moves none. -/
theorem map_fst_insert {entries : Entries} (h : (get? key entries).isSome = true) (v : Value) :
    (insert key v entries).map Prod.fst = entries.map Prod.fst := by
  induction entries with
  | nil => cases h
  | cons entry entries ih =>
    obtain ⟨k, w⟩ := entry
    rw [get?] at h
    rw [insert]
    split
    · rfl
    · next hk =>
      rw [if_neg hk] at h
      rw [List.map_cons, List.map_cons, ih h]

end Table

namespace Tally

/-! ## The digits in front of a text -/

/-- The digits that follow one, each behind a comma. -/
def furtherDigits : Text → Text
  | u :: d :: r => if u = 44 ∧ Text.isDigit d then d :: furtherDigits r else []
  | _ => []

/-- The digits with commas between them that a text starts with. -/
def listedDigits : Text → Text
  | d :: r => if Text.isDigit d then d :: furtherDigits r else []
  | [] => []

/-- Digits, each behind a comma. -/
def writtenOn (ds : Text) : Text :=
  ds.flatMap fun d => [44, d]

/-- Digits with commas between them. -/
def written : Text → Text
  | [] => []
  | d :: ds => d :: writtenOn ds

theorem furtherDigits_cons {d : Nat} (hd : Text.isDigit d = true) (r : Text) :
    furtherDigits (44 :: d :: r) = d :: furtherDigits r :=
  if_pos ⟨rfl, hd⟩

/-- A text goes on with a comma and a digit, or no digits follow. -/
theorem furtherDigits_induct {motive : Text → Prop}
    (step : ∀ d r, Text.isDigit d = true → motive r → motive (44 :: d :: r))
    (stop : ∀ r, furtherDigits r = [] →
      (∀ d r', r = 44 :: d :: r' → Text.isDigit d = false) → motive r) :
    ∀ r, motive r
  | [] => stop [] rfl fun d r' h => by cases h
  | [u] => stop [u] rfl fun d r' h => by cases h
  | u :: d :: r => by
    by_cases h : u = 44 ∧ Text.isDigit d = true
    · obtain ⟨hu, hd⟩ := h
      rw [hu]
      exact step d r hd (furtherDigits_induct step stop r)
    · refine stop (u :: d :: r) (if_neg h) ?_
      intro d' r' heq
      cases heq
      exact Bool.eq_false_iff.mpr fun hd => h ⟨rfl, hd⟩

theorem isDigit_of_mem_furtherDigits {r : Text} {d : Nat} (h : d ∈ furtherDigits r) :
    Text.isDigit d = true := by
  induction r using furtherDigits_induct with
  | step d' r hd ih =>
    rw [furtherDigits_cons hd] at h
    rcases List.mem_cons.mp h with rfl | h
    · exact hd
    · exact ih h
  | stop r hnone =>
    rw [hnone] at h
    cases h

theorem isDigit_of_mem_listedDigits {r : Text} {d : Nat} (h : d ∈ listedDigits r) :
    Text.isDigit d = true := by
  fun_cases listedDigits r with
  | case1 d' r hdigit =>
    rw [listedDigits, if_pos hdigit] at h
    rcases List.mem_cons.mp h with rfl | h
    · exact hdigit
    · exact isDigit_of_mem_furtherDigits h
  | case2 d' r hdigit =>
    rw [listedDigits, if_neg hdigit] at h
    cases h
  | case3 => cases h

/-- The digits that follow are written at the front of the text. -/
theorem writtenOn_furtherDigits_isPrefix (r : Text) : writtenOn (furtherDigits r) <+: r := by
  induction r using furtherDigits_induct with
  | step d r hd ih =>
    rw [furtherDigits_cons hd]
    exact (List.prefix_append_right_inj [44, d]).mpr ih
  | stop r hnone =>
    rw [hnone]
    exact List.nil_prefix

/-- The digits that are listed are written at the front of the text. -/
theorem written_listedDigits_isPrefix (r : Text) : written (listedDigits r) <+: r := by
  fun_cases listedDigits r with
  | case1 d r hdigit =>
    exact (List.prefix_append_right_inj [d]).mpr (writtenOn_furtherDigits_isPrefix r)
  | case2 => exact List.nil_prefix
  | case3 => exact List.nil_prefix

/-- Digits behind commas at the front of a text are among those that are taken. -/
theorem isPrefix_furtherDigits {ds r : Text} (hds : ∀ d ∈ ds, Text.isDigit d = true)
    (h : writtenOn ds <+: r) :
    ds <+: furtherDigits r := by
  induction ds generalizing r with
  | nil => exact List.nil_prefix
  | cons d ds ih =>
    obtain ⟨r', rfl⟩ := h
    obtain ⟨hd, hds⟩ := List.forall_mem_cons.mp hds
    show d :: ds <+: furtherDigits (44 :: d :: (writtenOn ds ++ r'))
    rw [furtherDigits_cons hd]
    exact (List.prefix_append_right_inj [d]).mpr (ih hds (List.prefix_append _ r'))

/-- No other digits with commas between them go further at the front of a text. -/
theorem isPrefix_listedDigits {ds r : Text} (hds : ∀ d ∈ ds, Text.isDigit d = true)
    (h : written ds <+: r) :
    ds <+: listedDigits r := by
  cases ds with
  | nil => exact List.nil_prefix
  | cons d ds =>
    obtain ⟨r', rfl⟩ := h
    obtain ⟨hd, hds⟩ := List.forall_mem_cons.mp hds
    show d :: ds <+: listedDigits (d :: (writtenOn ds ++ r'))
    rw [listedDigits, if_pos hd]
    exact (List.prefix_append_right_inj [d]).mpr
      (isPrefix_furtherDigits hds (List.prefix_append _ r'))

theorem written_isPrefix {ds ds' : Text} (h : ds <+: ds') : written ds <+: written ds' := by
  obtain ⟨ds₂, rfl⟩ := h
  cases ds with
  | nil => exact List.nil_prefix
  | cons d ds =>
    show d :: writtenOn ds <+: d :: writtenOn (ds ++ ds₂)
    rw [writtenOn, writtenOn, List.flatMap_append]
    exact ⟨_, rfl⟩

/-! ## Counting -/

/-- Counts digits one after the other. -/
def countAll (ds : Text) (c : Value) : Except Fault Value :=
  ds.foldlM (fun c d => countDigit (.text [d]) c) c

/-- Whether a table has no entry for a digit. -/
def lacks (entries : Table.Entries) (d : Nat) : Bool :=
  (Table.get? (.text [d]) entries).isNone

/-- The second table is the first one with the digits counted: the keys are the same and in the same
order, the entry of each digit has grown by the number of its occurrences, and all others are as
they were. -/
structure Counted (ds : Text) (entries entries' : Table.Entries) : Prop where
  keys : entries'.map Prod.fst = entries.map Prod.fst
  counts : ∀ d, (Table.get? (.text [d]) entries').bind Value.integer?
    = ((Table.get? (.text [d]) entries).bind Value.integer?).map (· + (ds.count d : Int))
  others : ∀ key, (∀ d ∈ ds, key ≠ .text [d]) → Table.get? key entries' = Table.get? key entries

theorem Counted.nil (entries : Table.Entries) : Counted [] entries entries where
  keys := rfl
  counts d := by simp
  others _ _ := rfl

/-- One digit more in front. -/
theorem Counted.cons {d : Nat} {ds : Text} {entries entries' : Table.Entries} {v : Value} {i : Int}
    (hv : Table.get? (.text [d]) entries = some v) (hi : v.integer? = some i)
    (h : Counted ds (Table.insert (.text [d]) (.int (i + 1)) entries) entries') :
    Counted (d :: ds) entries entries' where
  keys := h.keys.trans (Table.map_fst_insert (by rw [hv]; rfl) _)
  counts d' := by
    rw [h.counts, Table.get?_insert_text, List.count_cons]
    by_cases hd : d = d'
    · subst hd
      rw [if_pos rfl, hv, if_pos (beq_self_eq_true d)]
      show some (i + 1 + (ds.count d : Int)) = (v.integer?).map _
      rw [hi]
      show some _ = some (i + ((ds.count d + 1 : Nat) : Int))
      congr 1
      omega
    · rw [if_neg (by simpa using Ne.symm hd), if_neg (by simpa using hd), Nat.add_zero]
  others key hkey := by
    obtain ⟨hne, hrest⟩ := List.forall_mem_cons.mp hkey
    rw [h.others key hrest, Table.get?_insert_of_ne hne]

/-- Every digit that has an entry has an integer there. -/
def Integral (entries : Table.Entries) : Prop :=
  ∀ d v, Text.isDigit d = true → Table.get? (.text [d]) entries = some v → v.integer?.isSome = true

section

variable {d : Nat} {ds : Text} {entries : Table.Entries} {v : Value} {i : Int}

/-- A digit without an entry is the missing key. -/
theorem countDigit_of_lacks (h : lacks entries d = true) :
    countDigit (.text [d]) (.table entries) = .error (.missingKey (Value.text [d]).shown) := by
  rw [countDigit, Option.isNone_iff_eq_none.mp h]

/-- A digit with an entry that is an integer makes it grow by one. -/
theorem countDigit_of_get? (hv : Table.get? (.text [d]) entries = some v)
    (hi : v.integer? = some i) :
    countDigit (.text [d]) (.table entries) =
      .ok (.table (Table.insert (.text [d]) (.int (i + 1)) entries)) := by
  have hincrement : v.increment = .ok (.int (i + 1)) := by
    rw [Value.increment.eq_def, hi]
  rw [countDigit, hv]
  show (v.increment >>= fun n => pure (Value.table (Table.insert (.text [d]) n entries))) = _
  rw [hincrement]
  rfl

/-- In an integral table a digit has no entry or an integer. -/
theorem get?_of_not_lacks (h : Integral entries) (hd : Text.isDigit d = true)
    (hlacks : lacks entries d = false) :
    ∃ v i, Table.get? (.text [d]) entries = some v ∧ v.integer? = some i := by
  obtain ⟨v, hv⟩ := Option.isSome_iff_exists.mp (Option.isNone_eq_false_iff.mp hlacks)
  obtain ⟨i, hi⟩ := Option.isSome_iff_exists.mp (h d v hd hv)
  exact ⟨v, i, hv, hi⟩

/-- To count a digit leaves the digits that are missing as they are. -/
theorem lacks_insert (hv : Table.get? (.text [d]) entries = some v) (w : Value) :
    lacks (Table.insert (.text [d]) w entries) = lacks entries := by
  funext d'
  rw [lacks, lacks, Table.get?_insert_text]
  split
  · next heq => rw [heq, hv, Option.isNone_some, Option.isNone_some]
  · rfl

/-- An entry that is overwritten with an integer keeps the table integral. -/
theorem Integral.insert (h : Integral entries) (d : Nat) (i : Int) :
    Integral (Table.insert (.text [d]) (.int i) entries) := by
  intro d' v hd' hv
  rw [Table.get?_insert_text] at hv
  split at hv
  · cases hv
    rfl
  · exact h d' v hd' hv

/-- The first missing digit ends the counting, whatever was counted before. -/
theorem countAll_of_lacks (h : Integral entries) (hds : ∀ d ∈ ds, Text.isDigit d = true)
    (hd : ds.find? (lacks entries) = some d) :
    countAll ds (.table entries) = .error (.missingKey (Value.text [d]).shown) := by
  induction ds generalizing entries with
  | nil => cases hd
  | cons d' ds ih =>
    obtain ⟨hd', hds⟩ := List.forall_mem_cons.mp hds
    rw [countAll, List.foldlM_cons]
    cases hlacks : lacks entries d' with
    | true =>
      rw [List.find?_cons_of_pos hlacks] at hd
      cases hd
      rw [countDigit_of_lacks hlacks]
      rfl
    | false =>
      -- a digit that is counted does not change which ones are missing
      rw [List.find?_cons_of_neg (by rw [hlacks]; exact Bool.false_ne_true)] at hd
      obtain ⟨v, i, hv, hi⟩ := get?_of_not_lacks h hd' hlacks
      rw [countDigit_of_get? hv hi]
      exact ih (h.insert d' (i + 1)) hds (by rw [lacks_insert hv]; exact hd)

/-- Where no digit is missing, all are counted, by induction on the digits. -/
theorem countAll_of_not_lacks (h : Integral entries) (hds : ∀ d ∈ ds, Text.isDigit d = true)
    (hall : ∀ d ∈ ds, lacks entries d = false) :
    ∃ entries', countAll ds (.table entries) = .ok (.table entries') ∧
      Counted ds entries entries' := by
  induction ds generalizing entries with
  | nil => exact ⟨entries, rfl, .nil entries⟩
  | cons d ds ih =>
    obtain ⟨hd, hds⟩ := List.forall_mem_cons.mp hds
    obtain ⟨hlacks, hall⟩ := List.forall_mem_cons.mp hall
    obtain ⟨v, i, hv, hi⟩ := get?_of_not_lacks h hd hlacks
    obtain ⟨entries', hcount, hcounted⟩ :=
      ih (h.insert d (i + 1)) hds (by rw [lacks_insert hv]; exact hall)
    refine ⟨entries', ?_, .cons hv hi hcounted⟩
    rw [countAll, List.foldlM_cons, countDigit_of_get? hv hi]
    exact hcount

end

/-! ## The loop -/

section

variable {src : Source} {r : Text}

theorem char_found (htext : src.kind = .text) (cls : CharClass) {u : Nat}
    (hr : u :: r <:+ src.units.toList) (hu : cls.mem u = true) (c : Value) :
    ((Leaf.char cls).toRule : Rule Log) (src.leaving (u :: r)) c =
      pure (.ok (src.leaving r) (.text [u]) c) := by
  rw [(Rule.Follows.char htext cls).run hr (Nat.lt_succ_self _) c, Scan.unit, if_pos hu]
  rfl

/-- Where the rest begins with no character of the class, the leaf fails with its own tag. -/
theorem char_missed (htext : src.kind = .text) (cls : CharClass) (hr : r <:+ src.units.toList)
    (h : ∀ u ∈ r.head?, cls.mem u = false) (c : Value) :
    ((Leaf.char cls).toRule : Rule Log) (src.leaving r) c =
      pure (.err (src.leaving r) (.tag cls.tag) c) := by
  rw [(Rule.Follows.char htext cls).run hr (Nat.lt_succ_self _) c]
  cases r with
  | nil => rfl
  | cons u r =>
    rw [Scan.unit, if_neg (by rw [h u rfl]; exact Bool.false_ne_true)]
    rfl

theorem exactly_missed (htext : src.kind = .text) (hr : r <:+ src.units.toList) {u : Nat}
    (h : r.head? ≠ some u) (c : Value) :
    ((Leaf.char (.exactly u)).toRule : Rule Log) (src.leaving r) c =
      pure (.err (src.leaving r) (.tag .char) c) :=
  char_missed htext (.exactly u) hr (fun _ hv => decide_eq_false fun heq => h (heq ▸ hv)) c

/-- The rule of a digit that is counted. -/
def countedRule : Rule Log :=
  Rule.hooked (.onSuccess countDigit) (Leaf.char .digit).toRule

/-- A digit is taken and counted, and the counting may raise. -/
theorem countedRule_found (htext : src.kind = .text) {d : Nat} (hr : d :: r <:+ src.units.toList)
    (hd : Text.isDigit d = true) (c : Value) :
    countedRule (src.leaving (d :: r)) c
      = Run.lift (countDigit (.text [d]) c) >>= fun c' =>
        pure (.ok (src.leaving r) (.text [d]) c') := by
  show (((Leaf.char .digit).toRule : Rule Log) (src.leaving (d :: r)) c >>= fun result =>
      Run.lift _) = _
  rw [char_found htext .digit hr hd]
  show Run.lift
      (countDigit (.text [d]) c >>= fun c' => pure (Result.ok (src.leaving r) (.text [d]) c')) = _
  cases countDigit (.text [d]) c with
  | error fault => rfl
  | ok c' => rfl

theorem countedRule_missed (htext : src.kind = .text) (hr : r <:+ src.units.toList)
    (h : ∀ u ∈ r.head?, Text.isDigit u = false) (c : Value) :
    countedRule (src.leaving r) c = pure (.err (src.leaving r) (.tag .digit) c) := by
  show (((Leaf.char .digit).toRule : Rule Log) (src.leaving r) c >>= fun result => Run.lift _) = _
  rw [char_missed htext .digit hr h]
  rfl

/-- The rule of the comma. -/
def commaRule : Rule Log :=
  (Leaf.char (.exactly 44)).toRule

/-- What a loop has gathered that collects the digits and ends behind them. -/
def collected (src : Source) (ds : Text) (behind : Text) (gathered : List Value) (c : Value) :
    Rule.Sweep :=
  ⟨(ds.map fun d => Value.text [d]).reverse ++ gathered, src.leaving behind, c⟩

theorem collected_cons (src : Source) (d : Nat) (ds behind : Text) (gathered : List Value) :
    collected src (d :: ds) behind gathered = collected src ds behind (.text [d] :: gathered) := by
  funext c
  rw [collected, collected, List.map_cons, List.reverse_cons, List.append_assoc]
  rfl

/-- What was gathered comes back in the order of the text. -/
theorem collected_succeed (src : Source) (ds behind : Text) (v c : Value) :
    (collected src ds behind [v] c).succeed = .ok (src.leaving behind)
      (.list (v :: ds.map fun d => .text [d])) c := by
  simp [collected, Rule.Sweep.succeed, Rule.Sweep.outputs]

/-- The loop ends where no digit follows behind a comma, and leaves the comma. -/
theorem separatedFrom_stops (htext : src.kind = .text) (budget : Nat) (hr : r <:+ src.units.toList)
    (h : ∀ r', r = 44 :: r' → ∀ u ∈ r'.head?, Text.isDigit u = false) (gathered : List Value)
    (s : Stream) (c₀ v c : Value) :
    Rule.separatedFrom commaRule countedRule .leave (budget + 1) .infinite ⟨gathered, s, c₀⟩
      (.ok (src.leaving r) v c)
      = pure ⟨v :: gathered, src.leaving r, c⟩ := by
  have hpositive : Count.infinite.isPositive = true := rfl
  rw [Rule.separatedFrom, if_pos hpositive]
  by_cases hhead : r.head? = some 44
  · obtain ⟨r', rfl⟩ := List.head?_eq_some_iff.mp hhead
    have hbehind : r' <:+ src.units.toList := (List.suffix_cons 44 r').trans hr
    have hcomma : commaRule (src.leaving (44 :: r')) c =
        pure (.ok (src.leaving r') (.text [44]) c) :=
      char_found htext (.exactly 44) hr rfl c
    rw [hcomma]
    -- the comma is read, and the attempt behind it fails before anything is counted
    show countedRule (src.leaving r') c >>=
        Rule.separatedFrom commaRule countedRule .leave budget .infinite
      ⟨v :: gathered, src.leaving (44 :: r'), c⟩ = _
    rw [countedRule_missed htext hbehind (h r' rfl)]
    cases budget <;> rfl
  · have hcomma : commaRule (src.leaving r) c = pure (.err (src.leaving r) (.tag .char) c) :=
      exactly_missed htext hr hhead c
    rw [hcomma]
    rfl

/-- The loop collects the further digits, and counts them. -/
theorem separatedFrom_counted (htext : src.kind = .text) (budget : Nat)
    (hr : r <:+ src.units.toList) (hbudget : r.length < budget) (gathered : List Value) (s : Stream)
    (c₀ v c : Value) :
    Rule.separatedFrom commaRule countedRule .leave budget .infinite ⟨gathered, s, c₀⟩
      (.ok (src.leaving r) v c)
      = Run.lift ((countAll (furtherDigits r) c).map
          (collected src (furtherDigits r) (r.drop (writtenOn (furtherDigits r)).length)
            (v :: gathered))) := by
  have hpositive : Count.infinite.isPositive = true := rfl
  obtain ⟨budget, rfl⟩ : ∃ b, budget = b + 1 := ⟨budget - 1, by omega⟩
  induction r using furtherDigits_induct generalizing budget gathered s c₀ v c with
  | step d r hd ih =>
    rw [furtherDigits_cons hd]
    have hbehind : d :: r <:+ src.units.toList := (List.suffix_cons 44 _).trans hr
    have hcomma : commaRule (src.leaving (44 :: d :: r)) c =
        pure (.ok (src.leaving (d :: r)) (.text [44]) c) :=
      char_found htext (.exactly 44) hr rfl c
    rw [Rule.separatedFrom, if_pos hpositive, hcomma]
    show countedRule (src.leaving (d :: r)) c >>=
        Rule.separatedFrom commaRule countedRule .leave budget .infinite
      ⟨v :: gathered, src.leaving (44 :: d :: r), c⟩ = _
    rw [countedRule_found htext hbehind hd, countAll, List.foldlM_cons, collected_cons]
    cases countDigit (.text [d]) c with
    | error fault => rfl
    | ok c' =>
      -- the loop goes on in the context with the digit counted, behind two units more
      rw [List.length_cons, List.length_cons] at hbudget
      obtain ⟨budget, rfl⟩ : ∃ b, budget = b + 1 := ⟨budget - 1, by omega⟩
      exact ih ((List.suffix_cons d r).trans hbehind) (v :: gathered) (src.leaving (44 :: d :: r)) c
        (.text [d]) c' budget (by omega)
  | stop r hnone hstop =>
    rw [hnone]
    refine separatedFrom_stops htext budget hr (fun r' heq u hu => ?_) gathered s c₀ v c
    obtain ⟨r'', rfl⟩ := List.head?_eq_some_iff.mp hu
    exact hstop u r'' heq

/-- The rule of the digits between the brackets. -/
theorem separated_counted (htext : src.kind = .text) {budget : Nat} (hr : r <:+ src.units.toList)
    (hbudget : r.length < budget) (c : Value) :
    Rule.separated .leave budget (.finite 0) .infinite commaRule countedRule (src.leaving r) c
      = Run.lift ((countAll (listedDigits r) c).map fun c' =>
          .ok (src.leaving (r.drop (written (listedDigits r)).length))
            (.list ((listedDigits r).map fun d => .text [d])) c') := by
  have hreached (w : Rule.Sweep) : w.atLeast (.finite 0) .sepBy = w.succeed :=
    if_pos (by simp [Count.isReachedBy, Count.le])
  rw [Rule.separated]
  fun_cases listedDigits r with
  | case1 d r hd =>
    -- a first digit is counted, and the loop counts those that follow
    rw [countedRule_found htext hr hd, countAll, List.foldlM_cons]
    cases countDigit (.text [d]) c with
    | error fault => rfl
    | ok c' =>
      have hbehind : r <:+ src.units.toList := (List.suffix_cons d r).trans hr
      have hlen : r.length < budget := Nat.lt_of_succ_lt hbudget
      show (Rule.separatedFrom commaRule countedRule .leave budget .infinite
          ⟨[], src.leaving (d :: r), c⟩
        (.ok (src.leaving r) (.text [d]) c') >>= fun w => pure (w.atLeast (.finite 0) .sepBy)) =
          Run.lift ((countAll (furtherDigits r) c').map _)
      rw [separatedFrom_counted htext budget hbehind hlen]
      cases countAll (furtherDigits r) c' with
      | error fault => rfl
      | ok c'' =>
        show Run.ret (Rule.Sweep.atLeast (collected src _ _ [.text [d]] c'') (.finite 0) .sepBy) = _
        rw [hreached, collected_succeed]
        rfl
  | case2 d r hd =>
    -- without a first digit the list is empty, and that is a success
    have hnone : ∀ u ∈ (d :: r).head?, Text.isDigit u = false := by
      rintro u ⟨⟩
      exact Bool.eq_false_iff.mpr hd
    rw [countedRule_missed htext hr hnone]
    cases budget <;> rfl
  | case3 =>
    have hnone : ∀ u ∈ ([] : Text).head?, Text.isDigit u = false := by
      intro u hu
      cases hu
    rw [countedRule_missed htext hr hnone]
    cases budget <;> rfl

end

/-! ## The parser -/

/-- How the parser ends, behind the opening bracket and in the context that the digits were counted
in. -/
def tallyEnd (s : Stream) (r : Text) (c : Value) : Result :=
  if written (listedDigits r) ++ [93] <+: r then
    .ok (s.advance ((written (listedDigits r)).length + 2))
      (.list ((listedDigits r).map fun d => .text [d])) c
  else .err (s.advance ((written (listedDigits r)).length + 1)) (.tag .char) c

/-- Behind a part of the text, the next character decides. -/
theorem concat_isPrefix_iff {t t' r : Text} {u : Nat} (h : t ++ t' = r) :
    t ++ [u] <+: r ↔ t'.head? = some u := by
  rw [← h, List.prefix_append_right_inj]
  cases t' with
  | nil => simp
  | cons v t' => simp [List.cons_prefix_cons, eq_comm]

/-- Behind the opening bracket, what is inside is read, and then the closing one. -/
theorem between_opened {σ : Type} {opening closing inner : Rule σ} {s s' : Stream} {x c c' : Value}
    (h : opening s c = pure (.ok s' x c')) :
    Rule.between opening closing inner s c = inner.keepLeft closing s' c' := by
  rw [Rule.between, h]
  rfl

section

variable {s : Stream} (hs : s.InBounds) (hkind : s.source.kind = .text) {ds r : Text}
  (hrest : s.rest = 91 :: (written ds ++ r)) (c : Value)

include hs hkind hrest

/-- The digits are followed by the closing bracket. -/
theorem closing_found {r' : Text} (hr : r = 93 :: r') :
    ((Leaf.char (.exactly 93)).toRule : Rule Log) (s.source.leaving r) c
      = pure (.ok (s.advance ((written ds).length + 2)) (.text [93]) c) := by
  subst hr
  have hsuffix : 93 :: r' <:+ s.source.units.toList :=
    List.IsSuffix.trans ⟨91 :: written ds, hrest.symm⟩ hs.rest_suffix
  have hplace : s.advance (91 :: (written ds ++ [93])).length = s.source.leaving r' :=
    hs.advance_eq_leaving (by rw [hrest]; simp)
  have hlen : ((91 :: (written ds ++ [93])).length : Int) = (written ds).length + 2 := by
    simp only [List.length_cons, List.length_append, List.length_nil]
    omega
  rw [char_found hkind (.exactly 93) hsuffix rfl c, ← hplace, hlen]

/-- Without the bracket, the failure is where it was expected. -/
theorem closing_missed (hr : r.head? ≠ some 93) :
    ((Leaf.char (.exactly 93)).toRule : Rule Log) (s.source.leaving r) c
      = pure (.err (s.advance ((written ds).length + 1)) (.tag .char) c) := by
  have hsuffix : r <:+ s.source.units.toList :=
    List.IsSuffix.trans ⟨91 :: written ds, hrest.symm⟩ hs.rest_suffix
  have hplace : s.advance (91 :: written ds).length = s.source.leaving r :=
    hs.advance_eq_leaving hrest
  rw [exactly_missed hkind hsuffix hr c, ← hplace, List.length_cons]
  rfl

end

section

variable {initial : Option Value} {p : Parser Factory} (hp : (counter initial).check = .ok p)
  (rules : Rules) {s : Stream} (htext : s.isText = true) (hs : s.InBounds) {budget : Nat}
  (hbudget : s.rest.length < budget)

include hp htext hs hbudget

/-- Without the opening bracket nothing is counted. -/
theorem counter_run_unopened (hhead : s.rest.head? ≠ some 91) (c : Value) :
    p.direct rules budget s c = pure (.err s (.tag .char) c) := by
  obtain ⟨budget, rfl⟩ : ∃ b, budget = b + 1 := ⟨budget - 1, by omega⟩
  have hopening := exactly_missed (of_decide_eq_true htext) hs.rest_suffix hhead c
  rw [hs.leaving_rest] at hopening
  cases hp
  show Rule.between (Leaf.char (.exactly 91)).toRule _ _ s c = _
  rw [Rule.between, hopening]
  rfl

/-- Behind the opening bracket all is decided by the digits that are listed there. -/
theorem counter_run_opened {r : Text} (hrest : s.rest = 91 :: r) (c : Value) :
    p.direct rules budget s c = Run.lift ((countAll (listedDigits r) c).map (tallyEnd s r)) := by
  obtain ⟨budget, rfl⟩ : ∃ b, budget = b + 1 := ⟨budget - 1, by omega⟩
  have hkind : s.source.kind = .text := of_decide_eq_true htext
  have hr := hs.rest_suffix
  rw [hrest] at hr
  have hopening := char_found hkind (.exactly 91) hr rfl c
  rw [← hrest, hs.leaving_rest] at hopening
  have hinside : r <:+ s.source.units.toList := (List.suffix_cons 91 r).trans hr
  have hlen : r.length < budget := by
    rw [hrest, List.length_cons] at hbudget
    omega
  cases hp
  show Rule.between (Leaf.char (.exactly 91)).toRule (Leaf.char (.exactly 93)).toRule
    (Rule.separated .leave budget (.finite 0) .infinite commaRule countedRule) s c = _
  rw [between_opened hopening, Rule.keepLeft, separated_counted hkind hinside hlen]
  -- a missing key ends it here; otherwise the bracket is looked for behind the digits
  cases countAll (listedDigits r) c with
  | error fault => rfl
  | ok c' =>
    have hbehind := List.prefix_iff_eq_append.mp (written_listedDigits_isPrefix r)
    show ((Leaf.char (.exactly 93)).toRule (s.source.leaving (r.drop _)) c' >>= fun result => _) =
        pure (tallyEnd s r c')
    rw [tallyEnd]
    generalize r.drop (written (listedDigits r)).length = behind at hbehind ⊢
    have hclose := concat_isPrefix_iff (u := 93) hbehind
    rw [← hbehind] at hrest
    by_cases hhead : behind.head? = some 93
    · obtain ⟨r', hr'⟩ := List.head?_eq_some_iff.mp hhead
      rw [closing_found hs hkind hrest c' hr', if_pos (hclose.mpr hhead)]
      rfl
    · rw [closing_missed hs hkind hrest c' hhead, if_neg fun h => hhead (hclose.mp h)]
      rfl

end

/-- One parser, built once and called any number of times, ends each time as it does when called for
the first time. -/
theorem counter_calls {initial : Option Value} {p : Parser Factory}
    (hp : (counter initial).check = .ok p) (rules : Rules) (name : Text) :
    ∃ fresh q, Session.start rules [(name, counter initial)] = .ok fresh ∧
      fresh.find? name = some q ∧
      ∀ budget calls call, ((fresh.callAll budget calls).call budget q call).1 =
        p.call rules budget call := by
  have hbuild : Session.buildAll [(name, counter initial)] {}
      = (.ok [(name, (p.place #[]).1)], { cells := (p.place #[]).2 }) := by
    rw [Session.buildAll, Run.bind_apply, Memory.build, hp]
    rfl
  have hstart : Session.start rules [(name, counter initial)]
      = .ok ⟨rules, [(name, (p.place #[]).1)], { cells := (p.place #[]).2 }⟩ := by
    rw [Session.start, hbuild]
  have hfind : Session.find? ⟨rules, [(name, (p.place #[]).1)], { cells := (p.place #[]).2 }⟩ name
      = some (p.place #[]).1 := by
    simp [Session.find?]
  refine ⟨_, _, hstart, hfind, fun budget calls call => ?_⟩
  -- whatever was called before, the session continues the one that was started
  have hready := Session.start_ready hstart
  obtain ⟨-, -, hplaced⟩ := Session.start_placed hstart
  obtain ⟨g, p', hg, hp', hq⟩ := hplaced name _ hfind
  cases List.mem_singleton.mp hg
  cases hp.symm.trans hp'
  exact congrArg Outcome.worded
    ((hready.continues.callAll hready budget calls).call hq budget call).1

/-- **The tally counts exactly the digits that it collects.** Take any place of a text, and a
context in which the digits that have an entry have an integer there. Without an opening bracket the
parser fails right there and leaves the context as it is. Behind one, the digits are those of the
longest text in front that is made of digits with commas between them. If one of them has no entry,
the fault names the first such. If all have, they are counted, each as often as it occurs; and the
parser succeeds with them if a closing bracket follows and fails there otherwise, in both cases with
the counts in the context. No call has an effect on a later one. -/
theorem counter_run {initial : Option Value} {p : Parser Factory}
    (hp : (counter initial).check = .ok p) (rules : Rules) {s : Stream} (htext : s.isText = true)
    (hs : s.InBounds) {budget : Nat} (hbudget : s.rest.length < budget) {entries : Table.Entries}
    (hentries : Integral entries) (log : Log) (name : Text) :
    (s.rest.head? ≠ some 91 →
      p.direct rules budget s (.table entries) log =
        (.ok (.err s (.tag .char) (.table entries)), log)) ∧
    (∀ r, s.rest = 91 :: r →
      (∀ d ∈ listedDigits r, Text.isDigit d = true) ∧ written (listedDigits r) <+: r ∧
      (∀ ds, (∀ d ∈ ds, Text.isDigit d = true) → written ds <+: r →
        written ds <+: written (listedDigits r)) ∧
      (∀ d, (listedDigits r).find? (lacks entries) = some d →
        ∃ fault, fault = .missingKey (Value.text [d]).shown ∧ fault.category = .key ∧
          p.direct rules budget s (.table entries) log = (.error (.fault fault), log)) ∧
      ((∀ d ∈ listedDigits r, lacks entries d = false) →
        ∃ entries', Counted (listedDigits r) entries entries' ∧
        (written (listedDigits r) ++ [93] <+: r → p.direct rules budget s (.table entries) log
          = (.ok (.ok (s.advance ((written (listedDigits r)).length + 2))
              (.list ((listedDigits r).map fun d => .text [d])) (.table entries')), log)) ∧
        (¬ written (listedDigits r) ++ [93] <+: r → p.direct rules budget s (.table entries) log
          = (.ok (.err (s.advance ((written (listedDigits r)).length + 1)) (.tag .char)
              (.table entries')), log)))) ∧
    ∃ fresh q, Session.start rules [(name, counter initial)] = .ok fresh ∧
      fresh.find? name = some q ∧
      ∀ budget calls call, ((fresh.callAll budget calls).call budget q call).1 =
        p.call rules budget call := by
  refine ⟨fun hhead => ?_, fun r hrest => ?_, counter_calls hp rules name⟩
  · rw [counter_run_unopened hp rules htext hs hbudget hhead]
    rfl
  · have hdigits : ∀ d ∈ listedDigits r, Text.isDigit d = true :=
      fun _ => isDigit_of_mem_listedDigits
    -- what is left is to count the listed digits and to look for the bracket
    have hrun := counter_run_opened hp rules htext hs hbudget hrest (.table entries)
    refine ⟨hdigits, written_listedDigits_isPrefix r,
      fun ds hds h => written_isPrefix (isPrefix_listedDigits hds h),
      fun d hd => ⟨_, rfl, rfl, ?_⟩, fun hall => ?_⟩
    · rw [hrun, countAll_of_lacks hentries hdigits hd]
      rfl
    · obtain ⟨entries', hcount, hcounted⟩ := countAll_of_not_lacks hentries hdigits hall
      rw [hrun, hcount]
      refine ⟨entries', hcounted, fun hclose => ?_, fun hclose => ?_⟩
      · show Run.ret (tallyEnd s r (.table entries')) log = _
        rw [tallyEnd, if_pos hclose]
        rfl
      · show Run.ret (tallyEnd s r (.table entries')) log = _
        rw [tallyEnd, if_neg hclose]
        rfl

/-- In `[7,7,]` two digits are counted onto three, although the parser fails at the last comma. -/
theorem counter_run_trailing_comma :
    let src : Source := ⟨0, .text, #[91, 55, 44, 55, 44, 93]⟩
    let entries : Table.Entries := [(.text [120], .null), (.text [55], .int 3)]
    ∃ p, (counter none).check = .ok p ∧ ∃ entries', Counted [55, 55] entries entries' ∧
      p.direct (fun _ => none) 7 ⟨src, 0⟩ (.table entries) #[] =
        (.ok (.err ⟨src, 4⟩ (.tag .char) (.table entries')), #[]) := by
  intro src entries
  have hentries : Integral entries := by
    intro d v hd hv
    rw [Table.get?] at hv
    split at hv
    · next hletter =>
      -- the key that holds no integer is a letter
      cases Value.text_same_iff.mp hletter
      cases hd
    · rw [Table.get?] at hv
      split at hv
      · cases hv
        rfl
      · cases hv
  refine ⟨_, rfl, ?_⟩
  obtain ⟨-, hopened, -⟩ :=
    counter_run (s := ⟨src, 0⟩) rfl (fun _ => none) rfl ⟨by decide, by decide⟩
      (by decide : _ < 7) hentries #[] []
  obtain ⟨-, -, -, -, hcounts⟩ := hopened [55, 44, 55, 44, 93] (by decide)
  obtain ⟨entries', hcounted, -, hfailed⟩ := hcounts (by decide)
  exact ⟨entries', hcounted, hfailed (by decide)⟩

end Tally

end Descent
