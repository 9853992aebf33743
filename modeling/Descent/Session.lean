import Descent.Call

/-!
# Sessions

In a session parsers are built once and called many times. Each deferred parser has a cell: it is
empty at first, the first call that reaches it builds the parser and fills the cell, and later calls
find it there. A build that ends in a fault leaves the cell empty and is tried again next time. The
session counts the builds it has begun.

A grammar is a tree, so each place in it at which a parser is deferred has a cell of its own, and so
has each parser that a session is started with. What is not expressed here is one deferred parser
that stands at two places, in two parsers of a session or inside itself, and that would be built
once for all of them: its copies are built one by one, and the counts of builds are those of the
copies. A grammar that is chosen during the parse is built there and then, and gets new cells each
time.
-/

namespace Descent

/-- Where a deferred parser is kept. -/
structure Cell where
  factory : Factory
  parser : Option (Parser Nat) := none

/-- What a session remembers between calls, and the log of the current one. -/
structure Memory where
  cells : Array Cell := #[]
  /-- How many times a deferred parser was asked to be built. -/
  builds : Nat := 0
  log : Log := #[]

/-! ## Placing parsers in cells -/

mutual

/-- Gives each deferred parser a new cell. -/
def Parser.place : Parser Factory → Array Cell → Parser Nat × Array Cell
  | .leaf l, cells => (.leaf l, cells)
  | .unary op p, cells =>
    let (p, cells) := p.place cells
    (.unary op p, cells)
  | .binary op p q, cells =>
    let (p, cells) := p.place cells
    let (q, cells) := q.place cells
    (.binary op p q, cells)
  | .between opening closing inner, cells =>
    let (opening, cells) := opening.place cells
    let (closing, cells) := closing.place cells
    let (inner, cells) := inner.place cells
    (.between opening closing inner, cells)
  | .serial ps, cells =>
    let (ps, cells) := placeAll ps cells
    (.serial ps, cells)
  | .choice p ps, cells =>
    let (p, cells) := p.place cells
    let (ps, cells) := placeAll ps cells
    (.choice p ps, cells)
  | .bind p f, cells =>
    let (p, cells) := p.place cells
    (.bind p f, cells)
  | .deferred factory, cells => (.deferred cells.size, cells.push { factory })

/-- Gives each deferred parser in a list a new cell. -/
def Parser.placeAll : List (Parser Factory) → Array Cell → List (Parser Nat) × Array Cell
  | [], cells => ([], cells)
  | p :: ps, cells =>
    let (p, cells) := p.place cells
    let (ps, cells) := placeAll ps cells
    (p :: ps, cells)

end

namespace Memory

/-- Builds a grammar into the memory. -/
def build (g : Grammar) : Run Memory (Parser Nat) := fun m =>
  match g.check with
  | .error f => (.error (.fault f), m)
  | .ok p =>
    let (p, cells) := p.place m.cells
    (.ok p, { m with cells })

/-- Fills a cell. -/
def fill (m : Memory) (id : Nat) (p : Parser Nat) : Memory :=
  { m with cells := m.cells.modify id fun cell => { cell with parser := some p } }

/-- The parser of a cell, built now if the cell is empty. -/
def force (rules : Rules) (id : Nat) : Run Memory (Parser Nat) := do
  match ← Run.read fun m => m.cells[id]? with
  | none => Run.stop .unknownCell
  | some { parser := some p, .. } => return p
  | some { factory, parser := none } =>
    Run.update fun m => { m with builds := m.builds + 1 }
    let g ← Run.lift (factory.produce rules)
    let p ← build g
    Run.update (·.fill id p)
    return p

end Memory

/-- The host that keeps deferred parsers in cells and hands parsers on to `run`. -/
def Host.session (rules : Rules) (run : Parser Nat → Rule Memory) : Host Memory Nat where
  enter id s c := do
    let p ← Memory.force rules id
    run p s c
  start g s c := do
    let p ← Memory.build g
    run p s c
  note event m := { m with log := m.log.push event }

/-- The rule of a parser in a session. The budget bounds the nesting of deferred parsers and the
length of each loop. -/
def Parser.inSession (rules : Rules) : (budget : Nat) → Parser Nat → Rule Memory
  | 0, _ => fun _ _ => Run.stop .exhausted
  | budget + 1, p => p.toRule (Host.session rules (Parser.inSession rules budget)) budget

/-! ## Calls in a session -/

/-- The named parsers of a session and what it remembers. -/
structure Session where
  rules : Rules
  parsers : List (Text × Parser Nat)
  memory : Memory

namespace Session

/-- Builds the grammars in order into a memory. -/
def buildAll : List (Text × Grammar) → Run Memory (List (Text × Parser Nat))
  | [] => return []
  | (name, g) :: rest => do
    let p ← Memory.build g
    return (name, p) :: (← buildAll rest)

/-- A session with the given grammars built, in order. -/
def start (rules : Rules) (grammars : List (Text × Grammar)) : Except Stop Session :=
  match buildAll grammars {} with
  | (.ok parsers, memory) => .ok ⟨rules, parsers, memory⟩
  | (.error e, _) => .error e

/-- Calls a parser and keeps what the session then remembers. -/
def call (session : Session) (budget : Nat) (p : Parser Nat) (call : Call) : Outcome × Session :=
  let (result, memory) :=
    call.run p.defaultContext (p.inSession session.rules budget) { session.memory with log := #[] }
  (Outcome.worded ⟨result, memory.log⟩, { session with memory })

/-- The parser of a name. -/
def find? (session : Session) (name : Text) : Option (Parser Nat) :=
  (session.parsers.find? fun entry => entry.1 = name).map (·.2)

end Session

end Descent
