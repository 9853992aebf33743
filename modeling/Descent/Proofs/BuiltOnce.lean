import Descent.Proofs.Pairing
import Descent.Proofs.Palette
import Descent.Proofs.Sessions

/-!
# Descent — deferred parsers are built once, and on demand

A session counts the builds that it begins. Where no `bind` selects a grammar that defers parts of
its own, this count is accounted for at every moment: it is the number of filled cells, and of
builds that ended in a fault. A filled cell stays as it is, and a call that is made again needs no
build.

* **`Grammar.Fixed`** — which grammars the statement is about; **`Parser.Reaches.placedIn`** — what
  they reach once they are placed.
* **`Memory.Forced`** — all that asking for the parser of a cell can do.
* **`Ledger`** — a memory with all moments it has been through and the number of failed builds,
  which no session keeps. **`Parser.recorded`** runs a parser over a ledger as `Parser.inSession`
  does over a memory.
* **`Ledger.Records`** — the ledger is right about a run, and the run does nothing new where its end
  is known already. Sequencing keeps this, so that it is a pairing (`Pairing.recording`).
* **`Session.account_callAll`** — the statement for any calls, one after the other.
-/

namespace Descent

open Cell (factoryAt? Persist Appended)

/-! ## Grammars that defer nothing at parse time -/

/-- No `bind` selects a grammar with a deferred part, be it in the grammar or in what it defers.
With `false` there is no deferred part at all. -/
inductive Grammar.Fixed : Bool → Grammar → Prop where
  | terminal {deferring t} : Fixed deferring (.terminal t)
  | unary {deferring op g} (hg : Fixed deferring g) : Fixed deferring (.unary op g)
  | binary {deferring op g h} (hg : Fixed deferring g) (hh : Fixed deferring h) :
      Fixed deferring (.binary op g h)
  | between {deferring opening closing inner} (ho : Fixed deferring opening)
      (hc : Fixed deferring closing)
      (hi : Fixed deferring inner) : Fixed deferring (.between opening closing inner)
  | serial {deferring gs} (h : ∀ g ∈ gs, Fixed deferring g) : Fixed deferring (.serial gs)
  | choice {deferring gs} (h : ∀ g ∈ gs, Fixed deferring g) : Fixed deferring (.choice gs)
  | bind {deferring g f} (hg : Fixed deferring g) (hf : ∀ x h, f x = .ok h → Fixed false h) :
      Fixed deferring (.bind g f)
  | lazy {g} (hg : Fixed true g) : Fixed true (.lazy g)
  | ref {name} : Fixed true (.ref name)

/-- Every grammar that can be named is fixed. -/
def Rules.Fixed (rules : Rules) : Prop :=
  ∀ name g, rules name = some g → g.Fixed true

/-- What the deferred parser is built from is fixed; a name is, if all rules are. -/
def Factory.Fixed : Factory → Prop
  | grammar g => g.Fixed true
  | named _ => True

/-- The check keeps what a fixed grammar promises: no grammar behind a `bind` defers, and what is
deferred is fixed. -/
theorem Grammar.Fixed.check {deferring : Bool} {g : Grammar} (hg : g.Fixed deferring)
    {p : Parser Factory} (h : g.check = .ok p) :
    p.Reaches (fun factory => deferring = true ∧ factory.Fixed) (Grammar.Fixed false) := by
  induction hg generalizing p with
  | terminal =>
    cases Grammar.cases_of_check h
    exact .leaf
  | unary _ ih =>
    cases Grammar.cases_of_check h with
    | unary hp => exact .unary (ih hp)
  | binary _ _ ihg ihh =>
    cases Grammar.cases_of_check h with
    | binary hp hq => exact .binary (ihg hp) (ihh hq)
  | between _ _ _ iho ihc ihi =>
    cases Grammar.cases_of_check h with
    | between hp hq hr => exact .between (iho hp) (ihc hq) (ihi hr)
  | serial _ ih =>
    cases Grammar.cases_of_check h with
    | serial hps =>
      refine .serial fun p hp => ?_
      obtain ⟨g, hg, hcheck⟩ := hps p hp
      exact ih g hg hcheck
  | choice _ ih =>
    cases Grammar.cases_of_check h with
    | choice hps =>
      obtain ⟨g, hg, hcheck⟩ := hps _ List.mem_cons_self
      refine .choice (ih g hg hcheck) fun q hq => ?_
      obtain ⟨g, hg, hcheck⟩ := hps q (List.mem_cons_of_mem _ hq)
      exact ih g hg hcheck
  | bind _ hf ih =>
    cases Grammar.cases_of_check h with
    | bind hp => exact .bind (ih hp) hf
  | lazy hg =>
    cases Grammar.cases_of_check h
    exact .deferred ⟨rfl, hg⟩
  | ref =>
    cases Grammar.cases_of_check h
    exact .deferred ⟨rfl, trivial⟩

namespace Parser

theorem Reaches.mono {δ : Type} {D D' : δ → Prop} {E : Grammar → Prop} (h : ∀ d, D d → D' d)
    {p : Parser δ} (hp : p.Reaches D E) : p.Reaches D' E := by
  induction hp with
  | leaf => exact .leaf
  | unary _ ih => exact .unary ih
  | binary _ _ ihp ihq => exact .binary ihp ihq
  | between _ _ _ iho ihc ihi => exact .between iho ihc ihi
  | serial _ ih => exact .serial ih
  | choice _ _ ihp ih => exact .choice ihp ih
  | bind _ hf ih => exact .bind ih hf
  | deferred hd => exact .deferred (h _ hd)

end Parser

/-- The parser of a fixed factory defers to fixed factories only. -/
theorem Factory.Fixed.build {rules : Rules} (hrules : rules.Fixed) {factory : Factory}
    (hfactory : factory.Fixed) {p : Parser Factory} (h : factory.build rules = .ok p) :
    p.Reaches Factory.Fixed (Grammar.Fixed false) := by
  have hcheck {g : Grammar} (hg : g.Fixed true) (h : g.check = .ok p) :
      p.Reaches Factory.Fixed (Grammar.Fixed false) :=
    (hg.check h).mono fun _ hd => hd.2
  obtain ⟨g, hproduce, hg⟩ := ok_of_bind h
  cases factory with
  | grammar g' =>
    cases hproduce
    exact hcheck hfactory hg
  | named name =>
    rw [Factory.produce] at hproduce
    split at hproduce
    · next g' hname =>
      cases hproduce
      exact hcheck (hrules name g hname) hg
    · cases hproduce

/-! ## Placing -/

/-- The cell is there, and what is deferred there is fixed. -/
def Cell.Fixed (cells : Array Cell) (id : Nat) : Prop :=
  ∃ factory, factoryAt? cells id = some factory ∧ factory.Fixed

namespace Parser

section

variable {D : Factory → Prop} {E : Grammar → Prop} {cells : Array Cell}

/-- The cells of each parser are still there when the ones behind it have been placed. -/
theorem reaches_placeAll {D' : Nat → Prop} {ps : List (Parser Factory)}
    (h : ∀ p ∈ ps, ∀ before, Persist (p.place before).2 cells → (p.place before).1.Reaches D' E)
    {before : Array Cell} (hpersist : Persist (placeAll ps before).2 cells) :
    ∀ q ∈ (placeAll ps before).1, q.Reaches D' E := by
  induction ps generalizing before with
  | nil => exact fun q hq => nomatch hq
  | cons p ps ih =>
    have hrest : Appended (p.place before).2 (placeAll ps (p.place before).2).2 :=
      appended_placeAll (fun q _ => q.appended_place) _
    intro q hq
    rcases List.mem_cons.mp hq with rfl | hq
    · exact h p List.mem_cons_self before (hrest.persist.trans hpersist)
    · exact ih (fun q hq => h q (List.mem_cons_of_mem p hq)) hpersist q hq

/-- A placed parser reaches the cells that its deferred parts were given. -/
theorem Reaches.place {p : Parser Factory} (hp : p.Reaches D E) (before : Array Cell)
    (hpersist : Persist (p.place before).2 cells) :
    (p.place before).1.Reaches
      (fun id => ∃ factory, factoryAt? cells id = some factory ∧ D factory) E := by
  induction hp generalizing before with
  | leaf => exact .leaf
  | unary _ ih => exact .unary (ih before hpersist)
  | @binary op p q _ _ ihp ihq =>
    -- the cells of the first part are still there when the second is placed
    have hq := (q.appended_place (p.place before).2).persist
    exact .binary (ihp before (hq.trans hpersist)) (ihq _ hpersist)
  | @between opening closing inner _ _ _ iho ihc ihi =>
    have hclosing := (closing.appended_place (opening.place before).2).persist
    have hinner := (inner.appended_place (closing.place (opening.place before).2).2).persist
    exact .between (iho before (hclosing.trans (hinner.trans hpersist)))
      (ihc _ (hinner.trans hpersist)) (ihi _ hpersist)
  | serial _ ih => exact .serial (reaches_placeAll ih hpersist)
  | @choice p ps _ _ ihp ih =>
    have hrest : Appended (p.place before).2 (placeAll ps (p.place before).2).2 :=
      appended_placeAll (fun q _ => q.appended_place) _
    exact .choice (ihp before (hrest.persist.trans hpersist)) (reaches_placeAll ih hpersist)
  | bind _ hf ih => exact .bind (ih before hpersist) hf
  | @deferred factory hd =>
    have hfactory : factoryAt? (before.push { factory }) before.size = some factory := by
      rw [factoryAt?, Array.getElem?_push_size]
      rfl
    exact .deferred ⟨factory, hpersist _ _ hfactory, hd⟩

theorem Reaches.placedIn {p : Parser Factory} (hp : p.Reaches Factory.Fixed E) {q : Parser Nat}
    (h : p.PlacedIn cells q) : q.Reaches (Cell.Fixed cells) E := by
  obtain ⟨before, rfl, hpersist⟩ := h
  exact hp.place before hpersist

/-- Placing adds no cell, and gives the same tree over any cells. -/
def Stays (E : Grammar → Prop) (p : Parser Factory) : Prop :=
  ∃ q : Parser Nat, q.Reaches (fun _ => False) E ∧ ∀ cells, p.place cells = (q, cells)

/-- Parsers that add no cell one by one add none together. -/
theorem stays_placeAll {ps : List (Parser Factory)} (h : ∀ p ∈ ps, p.Stays E) :
    ∃ qs : List (Parser Nat), (∀ q ∈ qs, q.Reaches (fun _ => False) E) ∧
      ∀ cells, placeAll ps cells = (qs, cells) := by
  induction ps with
  | nil => exact ⟨[], List.forall_mem_nil _, fun _ => rfl⟩
  | cons p ps ih =>
    obtain ⟨q, hq, hplace⟩ := h p List.mem_cons_self
    obtain ⟨qs, hqs, hplaceAll⟩ := ih fun p' hp' => h p' (List.mem_cons_of_mem p hp')
    refine ⟨q :: qs, List.forall_mem_cons.mpr ⟨hq, hqs⟩, fun cells => ?_⟩
    simp only [placeAll, hplace, hplaceAll]

/-- Without deferred parts there is no cell to add. -/
theorem Reaches.stays {p : Parser Factory} (hp : p.Reaches (fun _ => False) E) : p.Stays E := by
  induction hp with
  | leaf => exact ⟨_, .leaf, fun _ => rfl⟩
  | @unary op _ _ ih =>
    obtain ⟨q, hq, hplace⟩ := ih
    exact ⟨.unary op q, .unary hq, fun cells => by simp only [Parser.place, hplace]⟩
  | @binary op _ _ _ _ ihp ihq =>
    obtain ⟨p, hp, hplace⟩ := ihp
    obtain ⟨q, hq, hplace'⟩ := ihq
    exact ⟨.binary op p q, .binary hp hq, fun cells => by simp only [Parser.place, hplace, hplace']⟩
  | between _ _ _ iho ihc ihi =>
    obtain ⟨opening, ho, hplace⟩ := iho
    obtain ⟨closing, hc, hplace'⟩ := ihc
    obtain ⟨inner, hi, hplace''⟩ := ihi
    exact ⟨_, .between ho hc hi,
      fun cells => by simp only [Parser.place, hplace, hplace', hplace'']⟩
  | serial _ ih =>
    obtain ⟨qs, hqs, hplaceAll⟩ := stays_placeAll ih
    exact ⟨_, .serial hqs, fun cells => by simp only [Parser.place, hplaceAll]⟩
  | choice _ _ ihp ih =>
    obtain ⟨q, hq, hplace⟩ := ihp
    obtain ⟨qs, hqs, hplaceAll⟩ := stays_placeAll ih
    exact ⟨_, .choice hq hqs, fun cells => by simp only [Parser.place, hplace, hplaceAll]⟩
  | bind _ hf ih =>
    obtain ⟨q, hq, hplace⟩ := ih
    exact ⟨_, .bind hq hf, fun cells => by simp only [Parser.place, hplace]⟩
  | deferred hd =>
    -- a deferred part would need a cell, and there is none to reach
    exact hd.elim

end

end Parser

/-- A grammar that defers nothing is built without a change of the memory. -/
theorem Grammar.Fixed.build {g : Grammar} (hg : g.Fixed false) :
    ∃ x : Except Fault (Parser Nat), Memory.build g = Run.lift x ∧
      ∀ q, x = .ok q → q.Reaches (fun _ => False) (Grammar.Fixed false) := by
  cases hcheck : g.check with
  | error f =>
    refine ⟨.error f, funext fun m => ?_, fun q hq => nomatch hq⟩
    rw [Memory.build, hcheck]
    rfl
  | ok p =>
    have hp : p.Reaches (fun _ => False) (Grammar.Fixed false) :=
      (hg.check hcheck).mono fun _ hd => nomatch hd.1
    obtain ⟨q, hq, hplace⟩ := hp.stays
    refine ⟨.ok q, funext fun m => ?_, fun q' hq' => by cases hq'; exact hq⟩
    rw [Memory.build, hcheck]
    simp only [hplace]
    rfl

/-! ## Cells -/

namespace Cell

/-- How many cells are filled. -/
def filled (cells : Array Cell) : Nat :=
  cells.countP (·.parser.isSome)

/-- Cells were added and filled. Those that were filled before hold what they held. -/
structure Grows (cells cells' : Array Cell) : Prop where
  persist : Persist cells cells'
  filled : ∀ (id : Nat) (factory : Factory) (q : Parser Nat), cells[id]? = some ⟨factory, some q⟩ →
    cells'[id]? = some ⟨factory, some q⟩

variable {cells cells' cells'' : Array Cell}

theorem Grows.refl (cells : Array Cell) : Grows cells cells :=
  ⟨.refl cells, fun _ _ _ h => h⟩

/-- What is filled at the first step holds through the second. -/
theorem Grows.trans (h : Grows cells cells') (h' : Grows cells' cells'') : Grows cells cells'' :=
  ⟨h.persist.trans h'.persist,
    fun id factory q hid => h'.filled id factory q (h.filled id factory q hid)⟩

theorem Appended.getElem?_eq (h : Appended cells cells') {id : Nat} {cell : Cell}
    (hid : cells[id]? = some cell) :
    cells'[id]? = some cell := by
  obtain ⟨blank, rfl, -⟩ := h
  have hlt : id < cells.size := (Array.getElem?_eq_some_iff.mp hid).1
  rw [Array.getElem?_append_left hlt, hid]

theorem Appended.grows (h : Appended cells cells') : Grows cells cells' :=
  ⟨h.persist, fun _ _ _ hid => h.getElem?_eq hid⟩

theorem Appended.filled_eq (h : Appended cells cells') :
    Cell.filled cells' = Cell.filled cells := by
  obtain ⟨blank, rfl, hblank⟩ := h
  have hnone : blank.countP (·.parser.isSome) = 0 := by
    refine Array.countP_eq_zero.mpr fun cell hcell => ?_
    simp [hblank cell hcell]
  rw [Cell.filled, Array.countP_append, hnone]
  rfl

end Cell

open Cell (Grows)

namespace Memory

variable {rules : Rules} {m m' : Memory} {id : Nat} {factory : Factory}

theorem Obtains.sound {x : Except Fault (Parser Factory)} {y : Except Stop (Parser Nat) × Memory}
    (h : m.Obtains rules x y) : y.2.Sound rules := by
  cases h with
  | ok hm _ => exact hm.sound
  | error hm => exact hm.sound

/-- A parser that was given is the placed one. -/
theorem Obtains.placed {x : Except Fault (Parser Factory)} {q : Parser Nat}
    (h : m.Obtains rules x (.ok q, m')) :
    ∃ p, x = .ok p ∧ p.PlacedIn m'.cells q := by
  cases h with
  | ok _ hq => exact ⟨_, rfl, hq⟩

theorem fill_getElem? (hid : m.cells[id]? = some ⟨factory, none⟩) (q : Parser Nat) :
    (m.fill id q).cells[id]? = some ⟨factory, some q⟩ := by
  rw [fill, Array.getElem?_modify, if_pos rfl, hid]
  rfl

/-- To fill an empty cell changes no filled one. -/
theorem grows_fill (hid : m.cells[id]? = some ⟨factory, none⟩) (q : Parser Nat) :
    Grows m.cells (m.fill id q).cells := by
  refine ⟨m.persist_fill id q, fun id' factory' q' hid' => ?_⟩
  rw [fill, Array.getElem?_modify, if_neg, hid']
  -- the cell that is filled now was not
  rintro rfl
  rw [hid] at hid'
  cases hid'

theorem filled_fill (hid : m.cells[id]? = some ⟨factory, none⟩) (q : Parser Nat) :
    Cell.filled (m.fill id q).cells = Cell.filled m.cells + 1 := by
  obtain ⟨hlt, hcell⟩ := Array.getElem?_eq_some_iff.mp hid
  have hset : (m.fill id q).cells = m.cells.set id ⟨factory, some q⟩ := by
    refine Array.ext_getElem? fun i => ?_
    rw [Array.getElem?_set]
    split
    · next h =>
      subst h
      exact fill_getElem? hid q
    · next h => rw [fill, Array.getElem?_modify, if_neg h]
  rw [hset, Cell.filled, Array.countP_set, hcell]
  simp [Cell.filled]

/-- What can come of asking for the parser of a cell: it is there, or the factory raises, or it is
built and the cell filled. -/
inductive Forced (m : Memory) (id : Nat) : Except Stop (Parser Nat) × Memory → Prop where
  | found {factory q} (hid : m.cells[id]? = some ⟨factory, some q⟩) : Forced m id (.ok q, m)
  | raised {factory f} (hid : m.cells[id]? = some ⟨factory, none⟩) :
      Forced m id (.error (.fault f), { m with builds := m.builds + 1 })
  | built {factory q cells} (hid : m.cells[id]? = some ⟨factory, none⟩)
      (h : Appended m.cells cells) :
      Forced m id (.ok q, fill { m with builds := m.builds + 1, cells } id q)

/-- Asking for a parser has no other outcome than these three. -/
theorem force_cases (hid : factoryAt? m.cells id = some factory) :
    m.Forced id (Memory.force rules id m) := by
  obtain ⟨⟨factory', content⟩, hcell, -⟩ := Option.map_eq_some_iff.mp hid
  cases content with
  | some q =>
    rw [force_filled hcell]
    exact .found hcell
  | none =>
    rw [force_empty hcell, fillFrom]
    cases factory'.produce rules with
    | error f => exact .raised hcell
    | ok g =>
      show m.Forced id ((Memory.build g >>= _) _)
      rw [Run.bind_apply, Memory.build]
      cases g.check with
      | error f => exact .raised hcell
      | ok p => exact .built hcell (p.appended_place m.cells)

/-- The number of builds that ended in a fault, where a parser was asked for once. -/
def failures {α : Type} : Except Stop α → Nat
  | .error (.fault _) => 1
  | _ => 0

variable {x : Except Stop (Parser Nat) × Memory}

/-- Filled cells stay as they are in each of the three cases. -/
theorem Forced.grows (h : m.Forced id x) : Grows m.cells x.2.cells := by
  cases h with
  | found _ => exact .refl _
  | raised _ => exact .refl _
  | built hid h =>
    exact h.grows.trans (grows_fill (m := { m with cells := _ }) (h.getElem?_eq hid) _)

/-- Each build that was begun has filled a cell or failed. -/
theorem Forced.count (h : m.Forced id x) :
    x.2.builds + Cell.filled m.cells = m.builds + Cell.filled x.2.cells + failures x.1 := by
  cases h with
  | found _ => rfl
  | raised _ => simp only [failures]; omega
  | @built factory q cells hid h =>
    have hfill := filled_fill (m := { m with builds := m.builds + 1, cells }) (h.getElem?_eq hid) q
    simp only at hfill
    rw [hfill, h.filled_eq]
    simp only [failures, fill]
    omega

/-- Once it has not failed, the parser is in its cell. -/
theorem Forced.again (h : m.Forced id x) (hx : failures x.1 = 0) (hm' : Grows x.2.cells m'.cells) :
    Memory.force rules id m' = (x.1, m') := by
  cases h with
  | found hid => exact force_filled (hm'.filled _ _ _ hid)
  | raised _ => cases hx
  | built hid h => exact force_filled (hm'.filled _ _ _ (fill_getElem? (h.getElem?_eq hid) _))

end Memory

/-! ## Ledgers

A ledger adds to the memory what no session keeps. It has no part in what the run does. -/

/-- What a session remembers at some moment between two steps, and how many builds have failed until
then. -/
structure Moment where
  memory : Memory
  failed : Nat := 0

/-- The moments that a session has been through. -/
structure Ledger where
  now : Moment
  /-- The earlier ones, latest first. -/
  before : List Moment := []

namespace Ledger

variable {α β : Type}

/-- All moments, latest first. -/
def moments (l : Ledger) : List Moment :=
  l.now :: l.before

/-- Enters a new moment. -/
def pass (l : Ledger) (memory : Memory) (failures : Nat) : Ledger :=
  ⟨⟨memory, l.now.failed + failures⟩, l.moments⟩

/-- A step of a session, with the moment that it leads to. -/
def step (failures : Except Stop α → Nat) (x : Run Memory α) : Run Ledger α := fun l =>
  let (ended, memory) := x l.now.memory
  (ended, l.pass memory (failures ended))

end Ledger

/-- The host that does what a session does, and enters every step in a ledger. -/
def Host.recorded (rules : Rules) (run : Parser Nat → Rule Ledger) : Host Ledger Nat where
  enter id s c := do
    let p ← Ledger.step Memory.failures (Memory.force rules id)
    run p s c
  start g s c := do
    let p ← Ledger.step (fun _ => 0) (Memory.build g)
    run p s c
  note event l := l.pass { l.now.memory with log := l.now.memory.log.push event } 0

/-- The rule of a parser in a session that keeps a ledger. -/
def Parser.recorded (rules : Rules) : (budget : Nat) → Parser Nat → Rule Ledger
  | 0, _ => fun _ _ => Run.stop .exhausted
  | budget + 1, p => p.toRule (Host.recorded rules (Parser.recorded rules budget)) budget

/-- Every build up to this moment has filled a cell or failed. -/
def Moment.Balanced (moment : Moment) : Prop :=
  moment.memory.builds = Cell.filled moment.memory.cells + moment.failed

namespace Ledger

variable {rules : Rules} {l : Ledger} {α β : Type}

/-- The builds were accounted for at every moment, and no filled cell has changed from one to
another. -/
structure Proper (rules : Rules) (l : Ledger) : Prop where
  sound : l.now.memory.Sound rules
  balanced : ∀ moment ∈ l.moments, moment.Balanced
  grows : l.moments.Pairwise fun later earlier => Grows earlier.memory.cells later.memory.cells

/-- A new moment is right if the step to it is: the builds that it counts have filled cells or
failed. -/
theorem Proper.pass (hl : l.Proper rules) {memory : Memory} {failures : Nat}
    (hsound : memory.Sound rules) (hgrows : Grows l.now.memory.cells memory.cells)
    (hcount : memory.builds + Cell.filled l.now.memory.cells =
      l.now.memory.builds + Cell.filled memory.cells + failures) :
    (l.pass memory failures).Proper rules := by
  have hnow : l.now.Balanced := hl.balanced _ List.mem_cons_self
  refine ⟨hsound, List.forall_mem_cons.mpr ⟨?_, hl.balanced⟩, List.Pairwise.cons ?_ hl.grows⟩
  · simp only [Moment.Balanced, Ledger.pass] at hnow ⊢
    omega
  · -- an earlier moment reaches the new one through the last
    intro earlier hearlier
    rcases List.mem_cons.mp hearlier with rfl | hearlier
    · exact hgrows
    · exact (List.rel_of_pairwise_cons hl.grows hearlier).trans hgrows

/-- What a ledger says of a run from its last moment on: how it ends, that the accounts are in
order, and that the same run does nothing where no cell is missing that it has filled. -/
structure Records (rules : Rules) (l : Ledger) (x : Except Stop α × Ledger) (y : Run Memory α) :
    Prop where
  erased : y l.now.memory = (x.1, x.2.now.memory)
  proper : x.2.Proper rules
  grows : Grows l.now.memory.cells x.2.now.memory.cells
  failed : l.now.failed ≤ x.2.now.failed
  again : x.2.now.failed = l.now.failed → ∀ m : Memory, Grows x.2.now.memory.cells m.cells →
    ∃ log, y m = (x.1, { m with log })

/-- A run that leaves the memory as it is. -/
theorem Proper.records (hl : l.Proper rules) {ended : Except Stop α} {y : Run Memory α}
    (hy : ∀ m, y m = (ended, m)) :
    l.Records rules (ended, l) y :=
  ⟨hy _, hl, .refl _, Nat.le_refl _, fun _ m _ => ⟨m.log, hy m⟩⟩

/-- The second run starts in the ledger that the first one left. To do both again, the first needs
the cells that it filled, and these are still there at the end. -/
theorem Records.bind {x : Run Ledger α} {y : Run Memory α} {f : α → Run Ledger β}
    {g : α → Run Memory β} (h : l.Records rules (x l) y)
    (hnext : ∀ a l', x l = (.ok a, l') → l'.Proper rules →
      Grows l.now.memory.cells l'.now.memory.cells → l'.Records rules (f a l') (g a)) :
    l.Records rules ((x >>= f) l) (y >>= g) := by
  rw [Run.bind_apply]
  rcases hx : x l with ⟨_ | a, l'⟩
  all_goals rw [hx] at h
  · -- the first run has stopped, and the second one is never made
    refine ⟨?_, h.proper, h.grows, h.failed, fun hfailed m hm => ?_⟩
    · rw [Run.bind_apply, h.erased]
    · obtain ⟨log, hagain⟩ := h.again hfailed m hm
      exact ⟨log, by rw [Run.bind_apply, hagain]⟩
  · -- the second run begins where the first one left the ledger
    have h' := hnext a l' hx h.proper h.grows
    refine ⟨?_, h'.proper, h.grows.trans h'.grows, Nat.le_trans h.failed h'.failed,
      fun hfailed m hm => ?_⟩
    · rw [Run.bind_apply, h.erased]
      exact h'.erased
    · -- neither run had a failure
      have hfirst : l'.now.failed = l.now.failed :=
        Nat.le_antisymm (hfailed ▸ h'.failed) h.failed
      obtain ⟨log, hagain⟩ := h.again hfirst m (h'.grows.trans hm)
      obtain ⟨log', hagain'⟩ := h'.again (hfailed.trans hfirst.symm) { m with log } hm
      exact ⟨log', by rw [Run.bind_apply, hagain]; exact hagain'⟩

/-- One step, entered in the ledger. -/
theorem Proper.step (hl : l.Proper rules) {failures : Except Stop α → Nat} {y : Run Memory α}
    (hsound : (y l.now.memory).2.Sound rules)
    (hgrows : Grows l.now.memory.cells (y l.now.memory).2.cells)
    (hcount : (y l.now.memory).2.builds + Cell.filled l.now.memory.cells =
      l.now.memory.builds + Cell.filled (y l.now.memory).2.cells + failures (y l.now.memory).1)
    (hagain : failures (y l.now.memory).1 = 0 → ∀ m : Memory,
      Grows (y l.now.memory).2.cells m.cells → ∃ log, y m = ((y l.now.memory).1, { m with log })) :
    l.Records rules (Ledger.step failures y l) y :=
  ⟨rfl, hl.pass hsound hgrows hcount, hgrows, Nat.le_add_right _ _,
    fun hfailed => hagain (Nat.add_eq_left.mp hfailed)⟩

/-- A step without effects enters a moment like the one before. -/
theorem Proper.lift (hl : l.Proper rules) (x : Except Fault α) :
    l.Records rules (Ledger.step (fun _ => 0) (Run.lift x) l) (Run.lift x) := by
  cases x with
  | error f => exact hl.step hl.sound (.refl _) rfl fun _ m _ => ⟨m.log, rfl⟩
  | ok a => exact hl.step hl.sound (.refl _) rfl fun _ m _ => ⟨m.log, rfl⟩

/-- Asking for the parser of a cell, entered in the ledger. -/
theorem Proper.force (hl : l.Proper rules) {id : Nat} {factory : Factory}
    (hid : factoryAt? l.now.memory.cells id = some factory) :
    l.Records rules (Ledger.step Memory.failures (Memory.force rules id) l)
      (Memory.force rules id) := by
  have hforced : l.now.memory.Forced id (Memory.force rules id l.now.memory) :=
    Memory.force_cases hid
  have hsound := (hl.sound.force hid).sound
  exact hl.step hsound hforced.grows hforced.count fun hfailures m hm =>
    ⟨m.log, hforced.again hfailures hm⟩

end Ledger

namespace Pairing

/-- A run over ledgers beside a run in a session. The cells are those of some time before. -/
def recording (rules : Descent.Rules) (cells : Array Cell) : Pairing Ledger Memory where
  rel x y := ∀ l : Ledger, l.Proper rules → Persist cells l.now.memory.cells →
    l.Records rules (x l) y
  pure _ _ hl _ := hl.records fun _ => rfl
  stop _ _ hl _ := hl.records fun _ => rfl
  bind hx hf l hl hcells :=
    (hx l hl hcells).bind fun a l' _ hl' hgrows => hf a l' hl' (hcells.trans hgrows.persist)

variable {rules : Descent.Rules} {cells : Array Cell}

/-- An event changes the log alone, and so no cell. -/
theorem recording_notes {run : Parser Nat → Rule Ledger} {run' : Parser Nat → Rule Memory} :
    (recording rules cells).Notes (Host.recorded rules run).note (Host.session rules run').note :=
  fun _ _ hl _ =>
    ⟨rfl, hl.pass hl.sound (.refl _) rfl, .refl _, Nat.le_refl _, fun _ _ _ => ⟨_, rfl⟩⟩

/-- **A ledger is right about every run.** What a cell holds runs on the smaller budget, from the
cells that there are by then; what a `bind` selects has no cells. -/
theorem recording_inSession (hrules : rules.Fixed) (budget : Nat) {q : Parser Nat}
    (hq : q.Reaches (Cell.Fixed cells) (Grammar.Fixed false)) :
    (recording rules cells).Rules (q.recorded rules budget) (q.inSession rules budget) := by
  induction budget generalizing cells q with
  | zero => exact fun _ _ => (recording rules cells).stop _
  | succ budget ih =>
    refine Rules.toRule (.refl budget) recording_notes ?_ ?_ hq
    · rintro id ⟨factory, hid, hfactory⟩ s c l hl hcells
      have hid' := hcells id factory hid
      refine (hl.force hid').bind fun q' l' hstep hl' _ => ?_
      -- the parser that was asked for is the one that the cell now holds
      have hforce : Memory.force rules id l.now.memory = (.ok q', l'.now.memory) := by
        rw [(hl.force hid').erased, hstep]
      have hobtained := hl.sound.force hid'
      rw [hforce] at hobtained
      obtain ⟨p, hp, hplaced⟩ := hobtained.placed
      exact ih ((hfactory.build hrules hp).placedIn hplaced) s c l' hl' (.refl _)
    · intro g hg s c l hl hcells
      -- a grammar that `bind` selects defers nothing, so building it is no step of the memory
      obtain ⟨x, hx, hreaches⟩ := hg.build
      have hbuild := hl.lift x
      rw [← hx] at hbuild
      refine hbuild.bind fun q' l' hstep hl' hgrows => ?_
      have hq' : x = .ok q' := by
        rw [hx] at hstep
        cases x with
        | error f => cases hstep
        | ok q => cases hstep; rfl
      exact ih ((hreaches q' hq').mono fun _ hd => hd.elim) s c l' hl' (hcells.trans hgrows.persist)

/-- A call of a parser over the ledger beside the same call in the session. -/
theorem recording_call (hrules : rules.Fixed) (budget : Nat) {q : Parser Nat}
    (hq : q.Reaches (Cell.Fixed cells) (Grammar.Fixed false)) (call : Call) :
    (recording rules cells).rel (call.run q.defaultContext (q.recorded rules budget))
      (call.run q.defaultContext (q.inSession rules budget)) :=
  (recording rules cells).bind (lift _) fun s => recording_inSession hrules budget hq s _

end Pairing

/-! ## Calls, one after the other -/

namespace Session

/-- Calls a parser by its name. Where the session has none of this name, nothing happens. -/
def callNamed (budget : Nat) (session : Session) (entry : Text × Call) : Session :=
  match session.find? entry.1 with
  | none => session
  | some q => (session.call budget q entry.2).2

/-- Makes the calls in order. -/
def callAll (budget : Nat) (session : Session) (calls : List (Text × Call)) : Session :=
  calls.foldl (callNamed budget) session

/-- The ledger of a call by name. The log is emptied first. -/
def enterNamed (budget : Nat) (session : Session) (l : Ledger) (entry : Text × Call) : Ledger :=
  match session.find? entry.1 with
  | none => l
  | some q =>
    (entry.2.run q.defaultContext (q.recorded session.rules budget)
      (l.pass { l.now.memory with log := #[] } 0)).2

/-- The ledger of the calls, from the session on. -/
def account (budget : Nat) (session : Session) (calls : List (Text × Call)) : Ledger :=
  calls.foldl (session.enterNamed budget) { now := { memory := session.memory } }

variable {rules : Rules} {grammars : List (Text × Grammar)} {fresh : Session} {budget : Nat}

/-- Building the parsers of a session begins no build of a deferred one, and leaves all cells
empty. -/
theorem buildAll_appended (grammars : List (Text × Grammar)) (m : Memory) :
    (buildAll grammars m).2.builds = m.builds ∧ Appended m.cells (buildAll grammars m).2.cells := by
  induction grammars generalizing m with
  | nil => exact ⟨rfl, .refl _⟩
  | cons named rest ih =>
    rw [buildAll, Run.bind_apply, Memory.build]
    cases named.2.check with
    | error f => exact ⟨rfl, .refl _⟩
    | ok p =>
      obtain ⟨hbuilds, happended⟩ := ih { m with cells := (p.place m.cells).2 }
      simp only [Run.bind_apply]
      rcases hrest : buildAll rest { m with cells := (p.place m.cells).2 } with ⟨_ | parsers, m'⟩
      all_goals
        rw [hrest] at hbuilds happended
        exact ⟨hbuilds, (p.appended_place m.cells).trans happended⟩

/-- The parsers of the session reach cells that it has, and whatever is deferred is fixed. -/
structure Fixed (fresh : Session) : Prop where
  rules : fresh.rules.Fixed
  reaches : ∀ name q, fresh.find? name = some q →
    q.Reaches (Cell.Fixed fresh.memory.cells) (Grammar.Fixed false)

/-- In a session of fixed grammars every parser is fixed, and what its cells defer to. -/
theorem start_fixed (hstart : start rules grammars = .ok fresh) (hrules : rules.Fixed)
    (hgrammars : ∀ entry ∈ grammars, entry.2.Fixed true) : fresh.Fixed := by
  obtain ⟨rfl, -, hplaced⟩ := start_placed hstart
  refine ⟨hrules, fun name q hq => ?_⟩
  obtain ⟨g, p, hg, hp, hq'⟩ := hplaced name q hq
  have hfixed : g.Fixed true := hgrammars (name, g) hg
  exact ((hfixed.check hp).mono fun _ hd => hd.2).placedIn hq'

/-- At the start no build has begun and no cell is filled. -/
theorem start_empty (hstart : start rules grammars = .ok fresh) :
    fresh.memory.builds = 0 ∧ Cell.filled fresh.memory.cells = 0 := by
  unfold start at hstart
  split at hstart
  · next parsers memory hbuild =>
    cases hstart
    have hfresh := buildAll_appended grammars {}
    rw [hbuild] at hfresh
    exact ⟨hfresh.1, hfresh.2.filled_eq⟩
  · cases hstart

/-- A call by name changes nothing but the memory. -/
theorem callNamed_eq (budget : Nat) (session : Session) (entry : Text × Call) :
    session.callNamed budget entry =
      { session with memory := (session.callNamed budget entry).memory } := by
  unfold callNamed
  split <;> rfl

theorem callAll_cons (budget : Nat) (session : Session) (entry : Text × Call)
    (calls : List (Text × Call)) :
    session.callAll budget (entry :: calls) =
      callAll budget { session with memory := (session.callNamed budget entry).memory } calls := by
  rw [callAll, List.foldl_cons, callNamed_eq]
  rfl

theorem callAll_eq (budget : Nat) (session : Session) (calls : List (Text × Call)) :
    session.callAll budget calls =
      { session with memory := (session.callAll budget calls).memory } := by
  induction calls generalizing session with
  | nil => rfl
  | cons entry calls ih => rw [callAll_cons, ih]

/-- A session goes on, whatever is called. -/
theorem Continues.callAll {session : Session} (h : fresh.Continues session) (hfresh : fresh.Ready)
    (budget : Nat) (calls : List (Text × Call)) :
    fresh.Continues (session.callAll budget calls) := by
  induction calls generalizing session with
  | nil => exact h
  | cons entry calls ih =>
    show fresh.Continues ((session.callNamed budget entry).callAll budget calls)
    refine ih ?_
    unfold callNamed
    split
    · exact h
    · next q hq =>
      rw [h.find?_eq] at hq
      obtain ⟨p, hp⟩ := hfresh.placed entry.1 q hq
      exact (h.call hp budget entry.2).2

/-- The ledger is right about a call by name. -/
theorem recording_callNamed (budget : Nat) (hfresh : fresh.Fixed) (entry : Text × Call) :
    (Pairing.recording fresh.rules fresh.memory.cells).rel
      (Run.update fun l => fresh.enterNamed budget l entry)
      (Run.update fun m => (callNamed budget { fresh with memory := m } entry).memory) := by
  intro l hl hcells
  have hfind (m : Memory) : find? { fresh with memory := m } entry.1 = fresh.find? entry.1 := rfl
  simp only [Run.update, enterNamed, callNamed, hfind]
  cases hq : fresh.find? entry.1 with
  | none => exact hl.records fun _ => rfl
  | some q =>
    -- emptying the log is the first step of the call
    have hemptied : (l.pass { l.now.memory with log := #[] } 0).Proper fresh.rules :=
      hl.pass hl.sound (.refl _) rfl
    have hrun :=
      Pairing.recording_call hfresh.rules budget (hfresh.reaches _ q hq) entry.2 _ hemptied hcells
    refine ⟨?_, hrun.proper, hrun.grows, hrun.failed, fun hfailed m hm => ?_⟩
    · exact congrArg (fun x => (Except.ok (), x.2)) hrun.erased
    · obtain ⟨log, hagain⟩ := hrun.again hfailed { m with log := #[] } hm
      exact ⟨log, congrArg (fun x => (Except.ok (), x.2)) hagain⟩

/-- A ledger records any number of calls, by induction on them. -/
theorem recording_callAll (budget : Nat) (hfresh : fresh.Fixed) (calls : List (Text × Call)) :
    (Pairing.recording fresh.rules fresh.memory.cells).rel
      (Run.update fun l => calls.foldl (fresh.enterNamed budget) l)
      (Run.update fun m => (callAll budget { fresh with memory := m } calls).memory) := by
  induction calls with
  | nil => exact (Pairing.recording _ _).pure ()
  | cons entry calls ih =>
    have hmemory :
        (Run.update fun m => (callAll budget { fresh with memory := m } (entry :: calls)).memory) =
          (Run.update fun m => (callNamed budget { fresh with memory := m } entry).memory) >>=
            fun _ => Run.update fun m =>
              (callAll budget { fresh with memory := m } calls).memory := by
      funext m
      rw [Run.update, callAll_cons]
      rfl
    rw [hmemory]
    exact (Pairing.recording _ _).bind (recording_callNamed budget hfresh entry) fun _ => ih

theorem account_append (budget : Nat) (fresh : Session) (calls calls' : List (Text × Call)) :
    fresh.account budget (calls ++ calls') = calls'.foldl (fresh.enterNamed budget)
      (fresh.account budget calls) :=
  List.foldl_append

/-- The ledger of any calls in a session that was just started. -/
theorem account_records (budget : Nat) (hstart : start rules grammars = .ok fresh)
    (hfresh : fresh.Fixed) (calls : List (Text × Call)) :
    Ledger.Records fresh.rules { now := { memory := fresh.memory } }
      (.ok (), fresh.account budget calls)
      (Run.update fun m => (callAll budget { fresh with memory := m } calls).memory) := by
  obtain ⟨hbuilds, hfilled⟩ := start_empty hstart
  obtain ⟨rfl, hsound, -⟩ := start_placed hstart
  refine recording_callAll budget hfresh calls _ ⟨hsound, ?_, List.pairwise_singleton _ _⟩ (.refl _)
  intro moment hmoment
  obtain rfl := List.mem_singleton.mp hmoment
  show fresh.memory.builds = Cell.filled fresh.memory.cells + 0
  rw [hbuilds, hfilled]

theorem account_memory (budget : Nat) (hstart : start rules grammars = .ok fresh)
    (hfresh : fresh.Fixed) (calls : List (Text × Call)) :
    (fresh.account budget calls).now.memory = (fresh.callAll budget calls).memory :=
  (congrArg Prod.snd (account_records budget hstart hfresh calls).erased).symm

/-- The call after the others is one that was made among them. -/
theorem builds_again (budget : Nat) (hstart : start rules grammars = .ok fresh)
    (hfresh : fresh.Fixed) {earlier between calls : List (Text × Call)} {entry : Text × Call}
    (hcalls : calls = earlier ++ entry :: between)
    (hfailed : (fresh.account budget (earlier ++ [entry])).now.failed =
      (fresh.account budget earlier).now.failed) :
    (fresh.callAll budget (calls ++ [entry])).memory.builds =
      (fresh.callAll budget calls).memory.builds := by
  have hearlier := account_records budget hstart hfresh earlier
  have hfirst := account_records budget hstart hfresh (earlier ++ [entry])
  have hentry := recording_callNamed budget hfresh entry _ hearlier.proper hearlier.grows.persist
  have hrest := recording_callAll budget hfresh between _ hfirst.proper hfirst.grows.persist
  -- the cells that the first call has filled are still there after the calls in between
  have hbetween : Grows (fresh.account budget (earlier ++ [entry])).now.memory.cells
      (fresh.callAll budget calls).memory.cells := by
    have hlast := account_append budget fresh (earlier ++ [entry]) between
    rw [← List.append_cons, ← hcalls] at hlast
    rw [← account_memory budget hstart hfresh, hlast]
    exact hrest.grows
  rw [account_append] at hfailed hbetween
  obtain ⟨log, hagain⟩ := hentry.again hfailed _ hbetween
  have hmemory : (callNamed budget (fresh.callAll budget calls) entry).memory =
      { (fresh.callAll budget calls).memory with log } := by
    rw [callAll_eq]
    exact congrArg Prod.snd hagain
  have hconcat : fresh.callAll budget (calls ++ [entry]) =
      callNamed budget (fresh.callAll budget calls) entry :=
    List.foldl_append
  rw [hconcat, hmemory]

/-- **Deferred parsers are built once, and on demand.** Let a session be started with grammars whose
binds defer nothing at parse time, and let any calls be made in it. Starting it begins no build. At
every moment, in the middle of a call as well, the builds begun so far are as many as there are
filled cells and failed builds; and whatever a cell holds at one moment it holds at all later ones.
A call in which no build failed begins no build when it is made again, whatever was called in
between. -/
theorem account_callAll (budget : Nat) (hstart : start rules grammars = .ok fresh)
    (hrules : rules.Fixed) (hgrammars : ∀ entry ∈ grammars, entry.2.Fixed true)
    (calls : List (Text × Call)) :
    (fresh.memory.builds = 0 ∧ Cell.filled fresh.memory.cells = 0) ∧
      (fresh.account budget calls).now.memory = (fresh.callAll budget calls).memory ∧
      (∀ moment ∈ (fresh.account budget calls).moments,
        moment.memory.builds = Cell.filled moment.memory.cells + moment.failed) ∧
      ((fresh.account budget calls).moments.Pairwise fun later earlier =>
        Grows earlier.memory.cells later.memory.cells) ∧
      ∀ earlier entry between, calls = earlier ++ entry :: between →
        (fresh.account budget (earlier ++ [entry])).now.failed =
          (fresh.account budget earlier).now.failed →
        (fresh.callAll budget (calls ++ [entry])).memory.builds =
          (fresh.callAll budget calls).memory.builds := by
  have hfresh := start_fixed hstart hrules hgrammars
  have hproper := (account_records budget hstart hfresh calls).proper
  refine ⟨start_empty hstart, account_memory budget hstart hfresh calls, hproper.balanced,
    hproper.grows, ?_⟩
  intro earlier entry between hcalls hfailed
  exact builds_again budget hstart hfresh hcalls hfailed

/-- Nested brackets, and a name that is missing. Of the eight builds that the calls begin two fail,
one before and one behind the call that is then made again. -/
theorem account_callAll_nested :
    let name : Text := .ofString "nested"
    let nested : Grammar :=
      .choice [.between (.char '(') (.char ')') (.ref name), .lazy (.char 'x')]
    let rules : Rules := fun n => if n = name then some nested else none
    let grammars : List (Text × Grammar) :=
      [(name, .unary (.traced name) (.ref name)), ([], .keepRight (.char '(') (.ref []))]
    let call (n : Text) (s : String) : Text × Call := (n, { input := .value (.text (.ofString s)) })
    let calls : List (Text × Call) := [call [] "(x)", call name "((x", call [] "(", call name "(x)"]
    ∃ fresh, start rules grammars = .ok fresh ∧ fresh.memory.builds = 0 ∧
      (fresh.callAll 6 calls).memory.builds = 8 ∧ (fresh.account 6 calls).now.failed = 2 ∧
      Cell.filled (fresh.callAll 6 calls).memory.cells = 6 ∧
      (fresh.callAll 6 (calls ++ [call name "((x"])).memory.builds = 8 := by
  intro name nested rules grammars call calls
  have hrules : rules.Fixed := by
    intro n g hg
    obtain rfl : nested = g := by
      simp only [rules] at hg
      split at hg
      · exact Option.some.inj hg
      · cases hg
    refine .choice fun g hg => ?_
    rcases List.mem_pair.mp hg with rfl | rfl
    · exact .between .terminal .terminal .ref
    · exact .lazy .terminal
  have hgrammars : ∀ entry ∈ grammars, entry.2.Fixed true := by
    intro entry hentry
    rcases List.mem_pair.mp hentry with rfl | rfl
    · exact .unary .ref
    · exact .binary .terminal .ref
  have hcounts :
      (start rules grammars).toOption.map (fun fresh =>
        ((fresh.callAll 6 calls).memory.builds, (fresh.account 6 calls).now.failed,
          (fresh.account 6 (calls.take 1)).now.failed,
          (fresh.account 6 (calls.take 2)).now.failed)) = some (8, 2, 1, 1) := by
    decide +kernel +zetaReduce
  obtain ⟨fresh, hfresh, hcounts⟩ := Option.map_eq_some_iff.mp hcounts
  have hstart : start rules grammars = .ok fresh := by
    cases h : start rules grammars with
    | error e =>
      rw [h] at hfresh
      cases hfresh
    | ok fresh =>
      rw [h] at hfresh
      cases hfresh
      rfl
  simp only [Prod.mk.injEq] at hcounts
  obtain ⟨hbuilds, hfailed, hbefore, hafter⟩ := hcounts
  obtain ⟨⟨hzero, -⟩, hmemory, hbalanced, -, hagain⟩ :=
    account_callAll 6 hstart hrules hgrammars calls
  have hnow := hbalanced _ List.mem_cons_self
  rw [hmemory, hbuilds, hfailed] at hnow
  refine ⟨fresh, hstart, hzero, hbuilds, hfailed, Nat.add_right_cancel hnow.symm, ?_⟩
  rw [← hbuilds]
  exact hagain (calls.take 1) _ (calls.drop 2) rfl (hafter.trans hbefore.symm)

end Session

end Descent
