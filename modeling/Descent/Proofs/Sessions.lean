import Descent.Proofs.Coupling
import Descent.Session.Script

/-!
# Descent — sessions are pure

A session builds every deferred parser once and keeps it in a cell, across calls and whatever ends
them. Yet no call can tell: it ends as it would in a session that has just been started, and as it
would if everything were built anew.

* **`Cell.Persist`** — cells are only added and filled, so the factory of a cell stays what it is.
* **`Parser.PlacedIn`** — a tree and the same tree over cells: what placing the one gave, at some
  time before.
* **`Memory.Sound`** — the invariant: what a filled cell holds is what its factory builds, placed.
  Asking for a parser (`Memory.Sound.force`, `Memory.Sound.build`) keeps it, also where a fault
  comes of it.
* **`Coupling.recalling`** — a run in a session beside one that remembers nothing. The sides need
  not agree on the cells there are, only on the log; `Coupling.Rules.inSession` is by induction on
  the budget.
* **`Session.performAll_run`** — the statement for a script of calls.
-/

namespace Descent

/-! ## Cells -/

namespace Cell

/-- What the parser of a cell was, or will be, built from. -/
def factoryAt? (cells : Array Cell) (id : Nat) : Option Factory :=
  cells[id]?.map (·.factory)

/-- All cells are still there, with their factories. -/
def Persist (cells cells' : Array Cell) : Prop :=
  ∀ id factory, factoryAt? cells id = some factory → factoryAt? cells' id = some factory

/-- Empty cells were added. -/
def Appended (cells cells' : Array Cell) : Prop :=
  ∃ blank : Array Cell, cells' = cells ++ blank ∧ ∀ cell ∈ blank, cell.parser = none

variable {cells cells' cells'' : Array Cell}

theorem Persist.refl (cells : Array Cell) : Persist cells cells :=
  fun _ _ h => h

theorem Persist.trans (h : Persist cells cells') (h' : Persist cells' cells'') :
    Persist cells cells'' :=
  fun id factory hid => h' id factory (h id factory hid)

theorem Appended.refl (cells : Array Cell) : Appended cells cells :=
  ⟨#[], by simp, by simp⟩

theorem Appended.trans (h : Appended cells cells') (h' : Appended cells' cells'') :
    Appended cells cells'' := by
  obtain ⟨blank, rfl, hblank⟩ := h
  obtain ⟨blank', rfl, hblank'⟩ := h'
  refine ⟨blank ++ blank', Array.append_assoc, fun cell hcell => ?_⟩
  rcases Array.mem_append.mp hcell with hcell | hcell
  · exact hblank cell hcell
  · exact hblank' cell hcell

/-- The old cells are the first ones still. -/
theorem Appended.persist (h : Appended cells cells') : Persist cells cells' := by
  obtain ⟨blank, rfl, -⟩ := h
  intro id factory hid
  obtain ⟨cell, hcell, hfactory⟩ := Option.map_eq_some_iff.mp hid
  have hlt : id < cells.size := (Array.getElem?_eq_some_iff.mp hcell).1
  rw [factoryAt?, Array.getElem?_append_left hlt, hcell, ← hfactory]
  rfl

/-- A filled cell was there before. -/
theorem Appended.filled (h : Appended cells cells') {id : Nat} {factory : Factory} {q : Parser Nat}
    (hid : cells'[id]? = some ⟨factory, some q⟩) : cells[id]? = some ⟨factory, some q⟩ := by
  obtain ⟨blank, rfl, hblank⟩ := h
  by_cases hlt : id < cells.size
  · rwa [Array.getElem?_append_left hlt] at hid
  · rw [Array.getElem?_append_right (Nat.le_of_not_lt hlt)] at hid
    have hnone := hblank _ (Array.mem_of_getElem? hid)
    cases hnone

end Cell

open Cell (factoryAt? Persist Appended)

/-! ## Placed parsers -/

namespace Parser

/-- Parsers that are placed one after the other each add to what is there. -/
theorem appended_placeAll {ps : List (Parser Factory)}
    (h : ∀ p ∈ ps, ∀ cells, Appended cells (p.place cells).2) (cells : Array Cell) :
    Appended cells (placeAll ps cells).2 := by
  induction ps generalizing cells with
  | nil => exact .refl cells
  | cons p ps ih =>
    have hp := h p List.mem_cons_self cells
    exact hp.trans (ih (fun q hq => h q (List.mem_cons_of_mem p hq)) _)

/-- To place a parser adds an empty cell for each of its deferred parts. -/
theorem appended_place (p : Parser Factory) (cells : Array Cell) :
    Appended cells (p.place cells).2 := by
  induction p using Parser.induction generalizing cells with
  | leaf l => exact .refl cells
  | unary op p ih => exact ih cells
  | binary op p q ihp ihq => exact (ihp cells).trans (ihq _)
  | between opening closing inner iho ihc ihi => exact ((iho cells).trans (ihc _)).trans (ihi _)
  | serial ps ih => exact appended_placeAll ih cells
  | choice p ps ihp ih => exact (ihp cells).trans (appended_placeAll ih _)
  | bind p f ih => exact ih cells
  | deferred factory =>
    refine ⟨#[{ factory }], Array.push_eq_append, fun cell hcell => ?_⟩
    obtain rfl : cell = { factory } := by simpa using hcell
    rfl

/-- The tree over cells is what placing the parser once gave, and the cells are still there. -/
def PlacedIn (cells : Array Cell) (p : Parser Factory) (q : Parser Nat) : Prop :=
  ∃ before, (p.place before).1 = q ∧ Persist (p.place before).2 cells

variable {p : Parser Factory} {q : Parser Nat} {cells cells' : Array Cell}

theorem placedIn_place (p : Parser Factory) (cells : Array Cell) :
    p.PlacedIn (p.place cells).2 (p.place cells).1 :=
  ⟨cells, rfl, .refl _⟩

/-- A placed parser stays placed, as its cells persist. -/
theorem PlacedIn.mono (h : p.PlacedIn cells q) (hcells : Persist cells cells') :
    p.PlacedIn cells' q := by
  obtain ⟨before, hq, hpersist⟩ := h
  exact ⟨before, hq, hpersist.trans hcells⟩

/-- The default context is part of the tree, which placing keeps. -/
theorem PlacedIn.defaultContext_eq (h : p.PlacedIn cells q) :
    q.defaultContext = p.defaultContext := by
  obtain ⟨before, rfl, -⟩ := h
  cases p with
  | unary op p => cases op <;> rfl
  | _ => rfl

end Parser

/-! ## Asking for a parser

A memory answers with what is in a cell or with what it builds. Either way the answer is a placed
tree of the parser that is asked for, or the fault of building it. -/

/-- The parser that a deferred parser is. -/
def Factory.build (rules : Rules) (factory : Factory) : Except Fault (Parser Factory) := do
  (← factory.produce rules).check

namespace Memory

variable {rules : Rules} {m m' : Memory}

/-- Filled cells hold what their factories build. -/
def Sound (rules : Rules) (m : Memory) : Prop :=
  ∀ (id : Nat) (factory : Factory) (q : Parser Nat), m.cells[id]? = some ⟨factory, some q⟩ →
    ∃ p, factory.build rules = .ok p ∧ p.PlacedIn m.cells q

/-- What a memory may become without a change of the log. -/
structure Later (rules : Rules) (m m' : Memory) : Prop where
  log : m'.log = m.log
  sound : m'.Sound rules
  persist : Persist m.cells m'.cells

theorem Sound.later (hm : m.Sound rules) : m.Later rules m :=
  ⟨rfl, hm, .refl _⟩

theorem Later.trans {m'' : Memory} (h : m.Later rules m') (h' : m'.Later rules m'') :
    m.Later rules m'' :=
  ⟨h'.log.trans h.log, h'.sound, h.persist.trans h'.persist⟩

/-- A memory was asked for a parser, and is now the given one: the parser is placed there, or cannot
be built. -/
inductive Obtains (rules : Rules) (m : Memory) :
    Except Fault (Parser Factory) → Except Stop (Parser Nat) × Memory → Prop where
  | ok {p q m'} (hm : m.Later rules m') (h : p.PlacedIn m'.cells q) :
      Obtains rules m (.ok p) (.ok q, m')
  | error {f m'} (hm : m.Later rules m') : Obtains rules m (.error f) (.error (.fault f), m')

/-- The parser may have been asked for after other steps. -/
theorem Obtains.of_later {x : Except Fault (Parser Factory)} {y : Except Stop (Parser Nat) × Memory}
    (h : m'.Obtains rules x y) (hm : m.Later rules m') : m.Obtains rules x y := by
  cases h with
  | ok hm' hq => exact .ok (hm.trans hm') hq
  | error hm' => exact .error (hm.trans hm')

/-- Empty cells hold nothing that could be wrong. -/
theorem Sound.append (hm : m.Sound rules) {cells : Array Cell} (h : Appended m.cells cells) :
    m.Later rules { m with cells } := by
  refine ⟨rfl, fun id factory q hid => ?_, h.persist⟩
  obtain ⟨p, hp, hq⟩ := hm id factory q (h.filled hid)
  exact ⟨p, hp, hq.mono h.persist⟩

/-- To build a grammar either places its parser or raises the fault of the check, and fills no
cell. -/
theorem Sound.build (hm : m.Sound rules) (g : Grammar) :
    m.Obtains rules g.check (Memory.build g m) := by
  unfold Memory.build
  cases g.check with
  | error f => exact .error hm.later
  | ok p => exact .ok (hm.append (p.appended_place m.cells)) (p.placedIn_place m.cells)

/-- A cell that is filled keeps its factory. -/
theorem persist_fill (m : Memory) (id : Nat) (q : Parser Nat) :
    Persist m.cells (m.fill id q).cells := by
  intro id' factory hid
  rw [factoryAt?, fill, Array.getElem?_modify]
  split
  · next h =>
    subst h
    rw [Option.map_map]
    exact hid
  · exact hid

/-- A cell may be filled with what its factory builds. -/
theorem Sound.fill (hm : m.Sound rules) {id : Nat} {factory : Factory}
    (hid : factoryAt? m.cells id = some factory) {p : Parser Factory}
    (hp : factory.build rules = .ok p) {q : Parser Nat} (hq : p.PlacedIn m.cells q) :
    m.Later rules (m.fill id q) := by
  refine ⟨rfl, fun id' factory' q' hid' => ?_, m.persist_fill id q⟩
  rw [Memory.fill, Array.getElem?_modify] at hid'
  split at hid'
  · next h =>
    -- the new entry; the factory of its cell is the one that was asked
    subst h
    obtain ⟨cell, hcell, heq⟩ := Option.map_eq_some_iff.mp hid'
    rw [factoryAt?, hcell] at hid
    cases hid
    cases heq
    exact ⟨p, hp, hq.mono (m.persist_fill id q)⟩
  · obtain ⟨p', hp', hq'⟩ := hm id' factory' q' hid'
    exact ⟨p', hp', hq'.mono (m.persist_fill id q)⟩

/-- Building the parser of an empty cell: the grammar is produced and built, and only then is the
cell filled. -/
def fillFrom (rules : Rules) (id : Nat) (factory : Factory) : Run Memory (Parser Nat) := do
  let g ← Run.lift (factory.produce rules)
  let q ← Memory.build g
  Run.update (·.fill id q)
  return q

/-- A filled cell answers with what it holds. -/
theorem force_filled {id : Nat} {factory : Factory} {q : Parser Nat}
    (hid : m.cells[id]? = some ⟨factory, some q⟩) :
    Memory.force rules id m = (.ok q, m) := by
  simp only [Memory.force, Run.bind_apply, Run.read, hid]
  rfl

/-- An empty cell counts a build and begins it. -/
theorem force_empty {id : Nat} {factory : Factory} (hid : m.cells[id]? = some ⟨factory, none⟩) :
    Memory.force rules id m = fillFrom rules id factory { m with builds := m.builds + 1 } := by
  simp only [Memory.force, Run.bind_apply, Run.read, hid]
  rfl

/-- The build of a cell gives what its factory builds. A fault leaves the cell empty. -/
theorem Sound.fillFrom (hm : m.Sound rules) {id : Nat} {factory : Factory}
    (hid : factoryAt? m.cells id = some factory) :
    m.Obtains rules (factory.build rules) (Memory.fillFrom rules id factory m) := by
  unfold Memory.fillFrom
  cases hproduce : factory.produce rules with
  | error f =>
    have hfault : factory.build rules = .error f := by rw [Factory.build, hproduce]; rfl
    rw [hfault]
    exact .error hm.later
  | ok g =>
    have hcheck : factory.build rules = g.check := by rw [Factory.build, hproduce]; rfl
    have hbuild := hm.build g
    rw [← hcheck] at hbuild
    show m.Obtains rules _ ((Memory.build g >>= _) m)
    rw [Run.bind_apply]
    generalize hx : factory.build rules = x at hbuild
    generalize Memory.build g m = y at hbuild
    cases hbuild with
    | error hlater =>
      -- the cell stays empty
      exact .error hlater
    | ok hlater hq =>
      have hid' := hlater.persist id factory hid
      exact .ok (hlater.trans (hlater.sound.fill hid' hx hq)) (hq.mono (persist_fill _ id _))

/-- Asking for the parser of a cell gives what its factory builds, whether the cell was filled or is
filled now. -/
theorem Sound.force (hm : m.Sound rules) {id : Nat} {factory : Factory}
    (hid : factoryAt? m.cells id = some factory) :
    m.Obtains rules (factory.build rules) (Memory.force rules id m) := by
  obtain ⟨⟨factory', content⟩, hcell, hfactory⟩ := Option.map_eq_some_iff.mp hid
  obtain rfl : factory' = factory := hfactory
  cases content with
  | some q =>
    obtain ⟨p, hp, hq⟩ := hm id factory' q hcell
    rw [force_filled hcell, hp]
    exact .ok hm.later hq
  | none =>
    rw [force_empty hcell]
    have hcounted : m.Later rules { m with builds := m.builds + 1 } := ⟨rfl, hm, .refl _⟩
    exact (hcounted.sound.fillFrom hid).of_later hcounted

end Memory

/-! ## A run in a session beside a direct one -/

/-- A memory in the middle of a call, and the log of a run that has come as far without it. The
cells are those of some time before. -/
structure Memory.Recalls (rules : Rules) (cells : Array Cell) (m : Memory) (log : Log) : Prop where
  log_eq : m.log = log
  sound : m.Sound rules
  persist : Persist cells m.cells

theorem Memory.Recalls.later {rules : Rules} {cells : Array Cell} {m m' : Memory} {log : Log}
    (hm : m.Recalls rules cells log) (h : m.Later rules m') : m'.Recalls rules cells log :=
  ⟨h.log.trans hm.log_eq, h.sound, hm.persist.trans h.persist⟩

namespace Coupling

/-- A run in a session beside one that builds everything anew. -/
def recalling (rules : Descent.Rules) (cells : Array Cell) : Coupling Memory Log where
  stream := Eq
  context := Eq
  output := Eq
  error := Eq
  state := Memory.Recalls rules cells
  halted := Memory.Recalls rules cells
  stop := Eq
  halt h := h
  exhausted := rfl
  null := rfl
  tuple := @tuple_eq
  list := @list_eq
  shortfall := @shortfall_eq

variable {rules : Descent.Rules} {cells cells' : Array Cell}

/-- Both sides of the coupling return one and the same result. -/
theorem recalling_results {a b : Result} : (recalling rules cells).Results a b ↔ a = b := by
  constructor
  · rintro (⟨rfl, rfl, rfl⟩ | ⟨rfl, rfl, rfl⟩)
    · rfl
    · rfl
  · rintro rfl
    cases a with
    | ok s x c => exact .ok rfl rfl rfl
    | err s e c => exact .err rfl rfl rfl

/-- Runs that agree from some cells on agree from fewer cells on. -/
theorem recalling_weaken (h : Persist cells cells') {x : Except Stop Result × Memory}
    {y : Except Stop Result × Log}
    (hend : (recalling rules cells').Ends (recalling rules cells').Results x y) :
    (recalling rules cells).Ends (recalling rules cells).Results x y := by
  have hstate {m : Memory} {log : Log} (hm : m.Recalls rules cells' log) :
      m.Recalls rules cells log :=
    ⟨hm.log_eq, hm.sound, h.trans hm.persist⟩
  cases hend with
  | returned hr hs => exact .returned (recalling_results.mpr (recalling_results.mp hr)) (hstate hs)
  | stopped he hs => exact .stopped he (hstate hs)

/-- A computation without effects is the same on both sides. -/
theorem recalling_excepts {α : Type} {x : Except Fault α} :
    (recalling rules cells).Excepts Eq x x :=
  .refl (fun _ _ => rfl) fun _ _ => rfl

/-- A hook is given the same stream and context on both sides, so it answers the same. -/
theorem recalling_hooked (hook : Hook) {p : Rule Memory} {p' : Rule Log}
    (hp : (recalling rules cells).Rules p p') :
    (recalling rules cells).Rules (Rule.hooked hook p) (Rule.hooked hook p') := by
  rintro s _ c _ rfl rfl
  unfold Rule.hooked
  refine (Runs.lift recalling_excepts).bind ?_
  rintro entry _ rfl
  cases entry with
  | finish result => exact .pure (recalling_results.mpr rfl)
  | proceed c =>
    refine (hp rfl rfl).bind ?_
    intro a b hab
    obtain rfl := recalling_results.mp hab
    exact .lift (.refl (fun _ _ => recalling_results.mpr rfl) fun _ _ => rfl)

/-- Both sides log the same event. -/
theorem recalling_notes (label : Text) :
    (recalling rules cells).Notes (fun event m => { m with log := m.log.push event })
      (fun event log => log.push event) label := by
  have hpush (event : Event) {m : Memory} {log : Log} (hm : m.Recalls rules cells log) :
      Memory.Recalls rules cells { m with log := m.log.push event } (log.push event) :=
    ⟨by rw [← hm.log_eq], hm.sound, hm.persist⟩
  constructor
  · rintro s _ rfl m log hm
    exact hpush _ hm
  · intro a b hab m log hm
    obtain rfl := recalling_results.mp hab
    exact hpush _ hm

/-- Every operation, hooks as well: equal arguments have equal values. -/
theorem recalling_unary (op : Unary) (budget : Nat) {p : Rule Memory} {p' : Rule Log}
    (hp : (recalling rules cells).Rules p p') :
    (recalling rules cells).Rules
      (op.toRule (fun event m => { m with log := m.log.push event }) budget p)
      (op.toRule (fun event log => log.push event) budget p') := by
  cases op with
  | map f =>
    refine hp.map ?_
    rintro x _ rfl
    exact recalling_excepts
  | mapError f =>
    refine hp.mapError ?_
    rintro x _ rfl
    exact recalling_excepts
  | optional => exact hp.optional
  | many least most => exact hp.many budget least most
  | many1 => exact hp.many1 budget
  | trimmed =>
    refine hp.trimmed ?_
    rintro s _ rfl
    exact recalling_excepts
  | tracked =>
    -- the contexts are equal, so either both are tables or neither is
    refine hp.tracked ?_
    rintro s _ c _ rfl rfl
    exact recalling_excepts
  | context initial => exact hp
  | traced label => exact hp.traced (recalling_notes label)
  | hooked hook => exact recalling_hooked hook hp

/-- A memory is asked for a parser, which then runs. -/
theorem recalling_obtain {run : Parser Nat → Rule Memory} {run' : Parser Factory → Rule Log}
    (hrun : ∀ cells p q, p.PlacedIn cells q → (recalling rules cells).Rules (run q) (run' p))
    {ask : Run Memory (Parser Nat)} {x : Except Fault (Parser Factory)}
    (hask : ∀ m : Memory, m.Sound rules → Persist cells m.cells → m.Obtains rules x (ask m))
    (s : Stream) (c : Value) :
    (recalling rules cells).Runs (recalling rules cells).Results (ask >>= fun q => run q s c)
      (Run.lift x >>= fun p => run' p s c) := by
  intro m log hm
  have hobtains := hask m hm.sound hm.persist
  rw [Run.bind_apply]
  generalize ask m = y at hobtains
  cases hobtains with
  | error hlater => exact .stopped rfl (hm.later hlater)
  | ok hlater hq =>
    -- the parser may stand in cells that are new, so it runs from these on
    have hnow := hm.later hlater
    refine recalling_weaken hnow.persist ?_
    exact hrun _ _ _ hq rfl rfl _ _ ⟨hnow.log_eq, hnow.sound, .refl _⟩

section

variable {run : Parser Nat → Rule Memory} {run' : Parser Factory → Rule Log} {budget : Nat}

/-- The host that remembers nothing builds a deferred parser whenever it is entered. -/
theorem direct_enter (factory : Factory) (s : Stream) (c : Value) :
    (Host.direct rules run').enter factory s c = Run.lift
      (factory.build rules) >>= fun p => run' p s c := by
  simp only [Host.direct, Factory.build]
  cases factory.produce rules with
  | error f => rfl
  | ok g => rfl

/-- A list of trees, placed one after the other. -/
theorem recalling_placeAll {ps : List (Parser Factory)}
    (h : ∀ p ∈ ps, ∀ before, Persist (p.place before).2 cells →
      (recalling rules cells).Rules ((p.place before).1.toRule (Host.session rules run) budget)
        (p.toRule (Host.direct rules run') budget))
    {before : Array Cell} (hpersist : Persist (Parser.placeAll ps before).2 cells) :
    List.Forall₂ (recalling rules cells).Rules
      (Parser.toRules (Host.session rules run) budget (Parser.placeAll ps before).1)
      (Parser.toRules (Host.direct rules run') budget ps) := by
  induction ps generalizing before with
  | nil => exact .nil
  | cons p ps ih =>
    have hrest : Appended (p.place before).2 (Parser.placeAll ps (p.place before).2).2 :=
      Parser.appended_placeAll (fun q _ => q.appended_place) _
    refine .cons (h p List.mem_cons_self before (hrest.persist.trans hpersist)) ?_
    exact ih (fun q hq => h q (List.mem_cons_of_mem p hq)) hpersist

/-- One tree, followed down to its leaves and cells. -/
theorem recalling_place
    (hrun : ∀ cells p q, p.PlacedIn cells q → (recalling rules cells).Rules (run q) (run' p))
    (p : Parser Factory) (before : Array Cell) (hpersist : Persist (p.place before).2 cells) :
    (recalling rules cells).Rules ((p.place before).1.toRule (Host.session rules run) budget)
      (p.toRule (Host.direct rules run') budget) := by
  induction p using Parser.induction generalizing before with
  | leaf l =>
    rintro s _ c _ rfl rfl
    exact .lift (.refl (fun _ _ => recalling_results.mpr rfl) fun _ _ => rfl)
  | unary op p ih => exact recalling_unary op budget (ih before hpersist)
  | binary op p q ihp ihq =>
    -- the cells of the first part are still there when the second is placed
    have hq := (q.appended_place (p.place before).2).persist
    exact Rules.binary op budget (ihp before (hq.trans hpersist)) (ihq _ hpersist)
  | between opening closing inner iho ihc ihi =>
    have hclosing := (closing.appended_place (opening.place before).2).persist
    have hinner := (inner.appended_place (closing.place (opening.place before).2).2).persist
    exact Rules.between (iho before (hclosing.trans (hinner.trans hpersist)))
      (ihc _ (hinner.trans hpersist)) (ihi _ hpersist)
  | serial ps ih => exact Rules.serial (recalling_placeAll ih hpersist)
  | choice p ps ihp ih =>
    have hrest : Appended (p.place before).2 (Parser.placeAll ps (p.place before).2).2 :=
      Parser.appended_placeAll (fun q _ => q.appended_place) _
    exact Rules.choice (ihp before (hrest.persist.trans hpersist)) (recalling_placeAll ih hpersist)
  | bind p f ih =>
    refine Rules.bind (ih before hpersist) ?_
    rintro x _ rfl s _ c _ rfl rfl
    refine (Runs.lift recalling_excepts).bind ?_
    rintro g _ rfl
    exact recalling_obtain hrun (fun m hm _ => hm.build g) s c
  | deferred factory =>
    rintro s _ c _ rfl rfl
    have hfactory : factoryAt? (before.push { factory }) before.size = some factory := by
      rw [factoryAt?, Array.getElem?_push_size]
      rfl
    rw [Parser.toRule, direct_enter]
    refine recalling_obtain hrun (fun m hm hcells => hm.force ?_) s c
    exact hcells _ _ (hpersist _ _ hfactory)

/-- **A run in a session is a direct run.** What a cell holds runs on the smaller budget, from the
cells that there are by then. -/
theorem Rules.inSession (budget : Nat) {p : Parser Factory} {q : Parser Nat}
    (hq : p.PlacedIn cells q) :
    (recalling rules cells).Rules (q.inSession rules budget) (p.direct rules budget) := by
  induction budget generalizing cells p q with
  | zero =>
    intro s t c d _ _
    exact .stop rfl
  | succ budget ih =>
    obtain ⟨before, rfl, hpersist⟩ := hq
    exact recalling_place (fun _ _ _ hq => ih hq) p before hpersist

/-- A call of a placed parser beside the direct call: the context is chosen in the same way. -/
theorem recalling_call {p : Parser Factory} {q : Parser Nat} (hq : p.PlacedIn cells q)
    (budget : Nat) (call : Call) :
    (recalling rules cells).Runs (recalling rules cells).Results
      (call.run q.defaultContext (q.inSession rules budget))
        (call.run p.defaultContext (p.direct rules budget)) := by
  unfold Call.run
  refine (Runs.lift recalling_excepts).bind ?_
  rintro s _ rfl
  rw [hq.defaultContext_eq]
  exact Rules.inSession budget hq rfl rfl

/-- The end of the call is the same, and the log is the one of the direct run. -/
theorem recalling_end {x : Except Stop Result × Memory} {y : Except Stop Result × Log}
    (h : (recalling rules cells).Ends (recalling rules cells).Results x y) :
    x.1 = y.1 ∧ x.2.Recalls rules cells y.2 := by
  cases h with
  | returned hr hs =>
    obtain rfl := recalling_results.mp hr
    exact ⟨rfl, hs⟩
  | stopped he hs =>
    obtain rfl := he
    exact ⟨rfl, hs⟩

end

end Coupling

/-! ## Calls -/

/-- Where a run in two steps returns, both steps do. -/
theorem Run.returned_of_bind {σ α β : Type} {x : Run σ α} {f : α → Run σ β} {u v : σ} {b : β}
    (h : (x >>= f) u = (.ok b, v)) : ∃ a w, x u = (.ok a, w) ∧ f a w = (.ok b, v) := by
  rw [Run.bind_apply] at h
  split at h
  · next a w hx => exact ⟨a, w, hx, h⟩
  · cases h

/-- How a parser by itself ends on a call: the result of the run and all that was logged, whether or
not the log can be worded. -/
def Parser.ending (rules : Rules) (budget : Nat) (p : Parser Factory) (call : Call) : Outcome :=
  let (result, log) := call.run p.defaultContext (p.direct rules budget) #[]
  ⟨result, log⟩

namespace Session

/-- How a parser of a session ends on a call, with all that was logged. -/
def ending (session : Session) (budget : Nat) (p : Parser Nat) (call : Call) : Outcome :=
  let (result, memory) :=
    call.run p.defaultContext (p.inSession session.rules budget) { session.memory with log := #[] }
  ⟨result, memory.log⟩

/-- The outcome of a call is its ending for a reader of the log. -/
theorem call_fst (session : Session) (budget : Nat) (p : Parser Nat) (call : Call) :
    (session.call budget p call).1 = (session.ending budget p call).worded :=
  rfl

/-- A session some calls later. -/
structure Continues (fresh session : Session) : Prop where
  rules : session.rules = fresh.rules
  parsers : session.parsers = fresh.parsers
  sound : session.memory.Sound fresh.rules
  persist : Persist fresh.memory.cells session.memory.cells

variable {rules : Rules} {grammars : List (Text × Grammar)} {fresh session : Session}

/-- One call: it ends as it would without a session, and the session goes on, whether the call
returned or not. -/
theorem Continues.call (h : fresh.Continues session) {p : Parser Factory} {q : Parser Nat}
    (hq : p.PlacedIn fresh.memory.cells q) (budget : Nat) (call : Call) :
    session.ending budget q call = p.ending fresh.rules budget call ∧
      fresh.Continues (session.call budget q call).2 := by
  have hend := Coupling.recalling_call hq budget call { session.memory with log := #[] } #[]
    ⟨rfl, h.sound, h.persist⟩
  obtain ⟨hresult, hmemory⟩ := Coupling.recalling_end hend
  unfold Session.ending Session.call Parser.ending
  rw [h.rules]
  refine ⟨?_, rfl, h.parsers, hmemory.sound, hmemory.persist⟩
  exact congrArg₂ Outcome.mk hresult hmemory.log_eq

/-- The parsers of a session are built one after the other. -/
theorem buildAll_placed {m m' : Memory} {parsers : List (Text × Parser Nat)} (hm : m.Sound rules)
    (h : buildAll grammars m = (.ok parsers, m')) :
    m.Later rules m' ∧ ∀ name q, (name, q) ∈ parsers →
      ∃ g p, (name, g) ∈ grammars ∧ g.check = .ok p ∧ p.PlacedIn m'.cells q := by
  induction grammars generalizing m parsers with
  | nil =>
    cases h
    exact ⟨hm.later, fun _ _ hmem => nomatch hmem⟩
  | cons named rest ih =>
    obtain ⟨name, g⟩ := named
    obtain ⟨q, m₁, hbuilt, h⟩ := Run.returned_of_bind h
    obtain ⟨parsers, m₂, hrest, h⟩ := Run.returned_of_bind h
    cases h
    -- the first parser stays placed, as the others only add cells
    have hbuild := hm.build g
    rw [hbuilt] at hbuild
    generalize hx : g.check = x at hbuild
    cases hbuild with
    | @ok p _ _ hlater hq =>
      obtain ⟨hlater', hparsers⟩ := ih hlater.sound hrest
      refine ⟨hlater.trans hlater', fun name' q' hmem => ?_⟩
      rcases List.mem_cons.mp hmem with heq | hmem
      · cases heq
        exact ⟨g, p, List.mem_cons_self, hx, hq.mono hlater'.persist⟩
      · obtain ⟨g', p', hg', hp', hq'⟩ := hparsers name' q' hmem
        exact ⟨g', p', List.mem_cons_of_mem _ hg', hp', hq'⟩

/-- A session that can be called: its memory is sound, and its parsers stand in its cells. -/
structure Ready (fresh : Session) : Prop where
  sound : fresh.memory.Sound fresh.rules
  placed : ∀ name q, fresh.find? name = some q →
    ∃ p : Parser Factory, p.PlacedIn fresh.memory.cells q

theorem Ready.continues (h : fresh.Ready) : fresh.Continues fresh :=
  ⟨rfl, rfl, h.sound, .refl _⟩

/-- What a new session holds under a name is a grammar of this name, built and placed. -/
theorem start_placed (h : start rules grammars = .ok fresh) :
    fresh.rules = rules ∧ fresh.memory.Sound rules ∧ ∀ name q, fresh.find? name = some q →
      ∃ g p, (name, g) ∈ grammars ∧ g.check = .ok p ∧ p.PlacedIn fresh.memory.cells q := by
  have hempty : Memory.Sound rules {} := by
    intro id factory q hid
    simp at hid
  unfold start at h
  split at h
  · next parsers memory hbuild =>
    cases h
    obtain ⟨hlater, hparsers⟩ := buildAll_placed hempty hbuild
    refine ⟨rfl, hlater.sound, fun name q hq => ?_⟩
    obtain ⟨⟨name', q'⟩, hentry, hq'⟩ := Option.map_eq_some_iff.mp hq
    obtain rfl : q' = q := hq'
    obtain rfl : name' = name := by simpa using List.find?_some hentry
    exact hparsers name' q' (List.mem_of_find?_eq_some hentry)
  · cases h

/-- A session that has been started is sound and has its parsers placed. -/
theorem start_ready (h : start rules grammars = .ok fresh) : fresh.Ready := by
  obtain ⟨rfl, hsound, hplaced⟩ := start_placed h
  refine ⟨hsound, fun name q hq => ?_⟩
  obtain ⟨-, p, -, -, hp⟩ := hplaced name q hq
  exact ⟨p, hp⟩

/-! ## Scripts -/

variable (budget : Nat)

theorem Continues.find?_eq (h : fresh.Continues session) (name : Text) :
    session.find? name = fresh.find? name := by
  rw [find?, find?, h.parsers]

/-- After a step, whether it calls or compares, the session still continues the fresh one. -/
theorem Continues.perform (h : fresh.Continues session) (hfresh : fresh.Ready)
    (answers : Array Answer) (step : Step) :
    fresh.Continues (session.perform budget answers step).2 := by
  cases step with
  | run name input context =>
    rw [Session.perform]
    split
    · next q call hq _ =>
      rw [h.find?_eq] at hq
      obtain ⟨p, hp⟩ := hfresh.placed name q hq
      exact (h.call hp budget call).2
    · exact h
  | equal i j =>
    rw [Session.perform]
    split
    · exact h
    · exact h

/-- A call of the script is answered like the first call of a fresh session. -/
theorem Continues.perform_run (h : fresh.Continues session) (hfresh : fresh.Ready)
    {answers : Array Answer} {name : Text} {input : InputFrom} {context : ContextFrom}
    {q : Parser Nat} (hq : fresh.find? name = some q) {call : Call}
    (hcall : callOf? answers input context = some call) :
    ∃ builds, (session.perform budget answers (.run name input context)).1 =
      .ran (fresh.call budget q call).1 builds := by
  obtain ⟨p, hp⟩ := hfresh.placed name q hq
  have hsame : (session.call budget q call).1 = (fresh.call budget q call).1 := by
    rw [call_fst, call_fst, (h.call hp budget call).1, (hfresh.continues.call hp budget call).1]
  rw [Session.perform, h.find?_eq, hq, hcall, ← hsame]
  exact ⟨_, rfl⟩

theorem performAll_cons (answers : Array Answer) (step : Step) (rest : List Step) :
    session.performAll budget answers (step :: rest) =
      (session.perform budget answers step).2.performAll budget
        (answers.push (session.perform budget answers step).1) rest :=
  rfl

/-- The session when some steps have been performed. -/
def after (session : Session) (answers : Array Answer) : List Step → Session
  | [] => session
  | step :: rest =>
    let (answer, session) := session.perform budget answers step
    session.after (answers.push answer) rest

/-- Whatever the steps are, the session goes on. -/
theorem Continues.after (h : fresh.Continues session) (hfresh : fresh.Ready)
    (answers : Array Answer) (steps : List Step) :
    fresh.Continues (session.after budget answers steps) := by
  induction steps generalizing session answers with
  | nil => exact h
  | cons step rest ih => exact ih (h.perform budget hfresh answers step) _

/-- Later steps leave the answers that there are. -/
theorem performAll_getElem? {answers : Array Answer} {i : Nat} (hi : i < answers.size)
    (steps : List Step) :
    (session.performAll budget answers steps)[i]? = answers[i]? := by
  induction steps generalizing session answers with
  | nil => rfl
  | cons step rest ih =>
    have hi' : i < (answers.push (session.perform budget answers step).1).size := by
      rw [Array.size_push]
      omega
    rw [performAll_cons, ih hi', Array.getElem?_push_lt hi, Array.getElem?_eq_getElem hi]

/-- A call in the middle of a script, from any session that continues the fresh one. -/
theorem Continues.performAll (h : fresh.Continues session) (hfresh : fresh.Ready)
    {answers : Array Answer} {steps : List Step} {k : Nat} {name : Text} {input : InputFrom}
    {context : ContextFrom} (hstep : steps[k]? = some (.run name input context)) {q : Parser Nat}
    (hq : fresh.find? name = some q) {call : Call}
    (hcall : callOf? (session.performAll budget answers (steps.take k)) input context = some call) :
    ∃ builds, (session.performAll budget answers steps)[answers.size + k]? =
      some (.ran (fresh.call budget q call).1 builds) := by
  induction steps generalizing session answers k with
  | nil => cases hstep
  | cons step rest ih =>
    cases k with
    | zero =>
      -- the call is made now, and later steps leave its answer
      obtain rfl : step = .run name input context := Option.some.inj hstep
      obtain ⟨builds, hanswer⟩ := h.perform_run budget hfresh hq hcall
      refine ⟨builds, ?_⟩
      rw [performAll_cons, performAll_getElem? budget (by simp), Nat.add_zero,
        Array.getElem?_push_size]
      exact congrArg some hanswer
    | succ k =>
      -- the call is made later, in a session that still continues the fresh one
      rw [List.take_succ_cons, performAll_cons] at hcall
      obtain ⟨builds, hanswer⟩ := ih (h.perform budget hfresh answers step) hstep hcall
      refine ⟨builds, ?_⟩
      rw [performAll_cons, ← hanswer, Array.size_push, Nat.add_assoc, Nat.add_comm 1 k]

/-- **Sessions are pure.** Let a session be started with some grammars, and a script be performed in
it. The outcome of each call in the script, its result or stop and its log, is that of the same call
made first, in the session as it was started. So neither what earlier calls have built nor how they
ended makes a difference; and it is also the outcome of the parser by itself, which builds
everything anew.

All this is so for the endings themselves, from which the outcomes are worded: in the session as the
steps before have left it, the run returns the same result and logs the same events, even where no
reader can word them. -/
theorem performAll_run (hstart : start rules grammars = .ok fresh) {steps : List Step} {k : Nat}
    {name : Text} {input : InputFrom} {context : ContextFrom}
    (hstep : steps[k]? = some (.run name input context)) {q : Parser Nat}
    (hq : fresh.find? name = some q) {call : Call}
    (hcall : callOf? (fresh.performAll budget #[] (steps.take k)) input context = some call) :
    (∃ builds, (fresh.performAll budget #[] steps)[k]? =
      some (.ran (fresh.call budget q call).1 builds)) ∧
    (fresh.after budget #[] (steps.take k)).ending budget q call = fresh.ending budget q call ∧
    ∃ g p, (name, g) ∈ grammars ∧ g.check = .ok p ∧
      (fresh.call budget q call).1 = p.call rules budget call ∧
      fresh.ending budget q call = p.ending rules budget call := by
  have hready := start_ready hstart
  obtain ⟨rfl, -, hplaced⟩ := start_placed hstart
  obtain ⟨g, p, hg, hp, hq'⟩ := hplaced name q hq
  have hending := (hready.continues.call hq' budget call).1
  -- after the steps before it the session still continues the fresh one
  have hlater := hready.continues.after budget hready #[] (steps.take k)
  refine ⟨?_, (hlater.call hq' budget call).1.trans hending.symm, g, p, hg, hp,
    congrArg Outcome.worded hending, hending⟩
  obtain ⟨builds, hanswer⟩ := hready.continues.performAll budget hready hstep hq hcall
  refine ⟨builds, ?_⟩
  rw [← hanswer]
  simp

/-- Nested brackets, called again after a call that a missing name stopped and one that failed. -/
theorem performAll_run_third :
    let name : Text := .ofString "nested"
    let nested : Grammar :=
      .choice [.between (.char '(') (.char ')') (.ref name), .lazy (.char 'x')]
    let rules : Rules := fun n => if n = name then some nested else none
    let grammars : List (Text × Grammar) :=
      [(name, .unary (.traced name) (.ref name)), ([], .keepRight (.char '(') (.ref []))]
    let text (s : String) : InputFrom := .given (.value (.text (.ofString s)))
    let steps : List Step :=
      [.run [] (text "(x)") .omitted, .run name (text "((x") .omitted,
        .run name (text "(x)") (.step 1)]
    ∃ fresh q call, start rules grammars = .ok fresh ∧ fresh.find? name = some q ∧
      callOf? (fresh.performAll 6 #[] (steps.take 2)) (text "(x)") (.step 1) = some call ∧
      (∃ builds, (fresh.performAll 6 #[] steps)[2]? = some (.ran (fresh.call 6 q call).1 builds)) ∧
      (fresh.after 6 #[] (steps.take 2)).ending 6 q call = fresh.ending 6 q call ∧
      ∃ g p, (name, g) ∈ grammars ∧ g.check = .ok p ∧
        (fresh.call 6 q call).1 = p.call rules 6 call ∧
        fresh.ending 6 q call = p.ending rules 6 call := by
  intro name nested rules grammars text steps
  -- the first two calls are performed in order to know the context that the third one takes up
  have hcalls : ((start rules grammars).toOption.bind fun fresh => (fresh.find? name).bind fun _ =>
      callOf? (fresh.performAll 6 #[] (steps.take 2)) (text "(x)") (.step 1)).isSome = true := by
    decide +kernel +zetaReduce
  obtain ⟨call, hcall⟩ := Option.isSome_iff_exists.mp hcalls
  obtain ⟨fresh, hstart, hcall⟩ := Option.bind_eq_some_iff.mp hcall
  obtain ⟨q, hq, hcall⟩ := Option.bind_eq_some_iff.mp hcall
  have hstart : start rules grammars = .ok fresh := by
    cases h : start rules grammars with
    | error e =>
      rw [h] at hstart
      cases hstart
    | ok fresh =>
      rw [h] at hstart
      cases hstart
      rfl
  exact ⟨fresh, q, call, hstart, hq, hcall, performAll_run 6 hstart rfl hq hcall⟩

end Session

end Descent
