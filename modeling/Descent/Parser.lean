import Descent.Grammar
import Descent.Text.Quoted

/-!
# Parsers

A parser is a grammar whose arguments have been checked. It is a tree over the places `δ` where a
deferred parser stands; what such a place holds depends on how the parser is run.
-/

namespace Descent

/-- A checked parser with deferred parsers of type `δ`. -/
inductive Parser (δ : Type) where
  | leaf (l : Leaf)
  | unary (op : Unary) (p : Parser δ)
  | binary (op : Binary) (p q : Parser δ)
  | between (opening closing inner : Parser δ)
  | serial (ps : List (Parser δ))
  /-- One or more alternatives. -/
  | choice (p : Parser δ) (ps : List (Parser δ))
  | bind (p : Parser δ) (f : Value → Except Fault Grammar)
  | deferred (d : δ)

/-- Induction on parsers, where every part in a list has the property. -/
theorem Parser.induction {δ : Type} {motive : Parser δ → Prop}
    (leaf : ∀ l, motive (.leaf l))
    (unary : ∀ op p, motive p → motive (.unary op p))
    (binary : ∀ op p q, motive p → motive q → motive (.binary op p q))
    (between : ∀ opening closing inner, motive opening → motive closing → motive inner →
      motive (.between opening closing inner))
    (serial : ∀ ps, (∀ p ∈ ps, motive p) → motive (.serial ps))
    (choice : ∀ p ps, motive p → (∀ q ∈ ps, motive q) → motive (.choice p ps))
    (bind : ∀ p f, motive p → motive (.bind p f))
    (deferred : ∀ d, motive (.deferred d)) (p : Parser δ) : motive p :=
  @Parser.rec δ motive (fun ps => ∀ p ∈ ps, motive p) leaf unary binary between serial
    choice bind deferred (fun _ h => nomatch h) (fun _ _ hp hps q hq => by
      rcases List.mem_cons.mp hq with rfl | hq
      · exact hp
      · exact hps q hq)
    p

/-- What a deferred parser is built from. -/
inductive Factory where
  | grammar (g : Grammar)
  | named (name : Text)

/-! ## Checking arguments -/

/-- The one character that a value is. -/
def Value.asCharacter : Value → Except Fault Nat
  | .text [c] => .ok c
  | _ => .error .notOneCharacter

/-- The entries of an escape table: first their keys and values, then that each key is one
character. -/
def Value.asEscapes (v : Value) : Except Fault (List (Nat × Value)) := do
  (← v.toEntries).mapM fun e => do return (← e.1.asCharacter, e.2)

/-- The hexadecimal case that a value names. -/
def Value.asHexCase (v : Value) : Except Fault HexCase :=
  if v.equal (.text (.ofString "both")) then .ok .both
  else if v.equal (.text (.ofString "upper")) then .ok .upper
  else if v.equal (.text (.ofString "lower")) then .ok .lower
  else .error .unknownHexCase

/-- The byte that a value is. -/
def Value.asByte : Value → Except Fault Nat
  | .int i => if 0 ≤ i ∧ i ≤ 255 then .ok i.toNat else .error .notByte
  | _ => .error .notInteger

/-- The bytes that a value holds. -/
def Value.asBytes : Value → Except Fault (List Nat)
  | .bytes b | .buffer b => .ok b
  | _ => .error .notBytes

/-- The leaf that was asked for. -/
def Terminal.check : Terminal → Except Fault Leaf
  | leaf l => .ok l
  | char c => do return .char (.exactly (← c.asCharacter))
  | oneOf cs => do return .char (.oneOf (← cs.mapM Value.asCharacter))
  | noneOf cs => do return .char (.noneOf (← cs.mapM Value.asCharacter))
  | hex case => do return .hex (← case.asHexCase)
  | string (.text t) => .ok (.string t)
  | string _ => .error .notText
  | byte b => do return .byte (.exactly (← b.asByte))
  | slice literal => do return .slice (← literal.asBytes)
  | escapedWith control entries => do
    let c ← control.asCharacter
    return .escapedWith c (← entries.asEscapes)
  | escapedBy control decode => do return .escapedBy (← control.asCharacter) decode

/-- Whether the bounds of a repetition leave room. -/
def Count.checkRange (least most : Count) : Except Fault Unit :=
  if least.le most then .ok () else .error .emptyCountRange

/-- Whether an operation can be built. -/
def Unary.check : Unary → Except Fault Unit
  | many least most => Count.checkRange least most
  | _ => .ok ()

/-- Whether an operation can be built. -/
def Binary.check : Binary → Except Fault Unit
  | separated _ least most => Count.checkRange least most
  | _ => .ok ()

/-! ## Building -/

mutual

/-- The parser that a grammar describes. Parts are built before the whole and from left to right, so
of several faults the first one counts. -/
def Grammar.check : Grammar → Except Fault (Parser Factory)
  | .terminal t => do return .leaf (← t.check)
  | .unary op g => do
    let p ← g.check
    op.check
    return .unary op p
  | .binary op g h => do
    let p ← g.check
    let q ← h.check
    op.check
    return .binary op p q
  | .between opening closing inner => do
    let p ← opening.check
    let q ← closing.check
    return .between p q (← inner.check)
  | .serial gs => do return .serial (← checkAll gs)
  | .choice gs => do
    match ← checkAll gs with
    | [] => throw .noAlternative
    | p :: ps => return .choice p ps
  | .bind g f => do return .bind (← g.check) f
  | .lazy g => return .deferred (.grammar g)
  | .ref name => return .deferred (.named name)

/-- The parsers that grammars describe. -/
def Grammar.checkAll : List Grammar → Except Fault (List (Parser Factory))
  | [] => return []
  | g :: gs => do
    let p ← g.check
    return p :: (← checkAll gs)

end

/-- The grammar that a deferred parser is built from. -/
def Factory.produce (rules : Rules) : Factory → Except Fault Grammar
  | grammar g => .ok g
  | named name =>
    match rules name with
    | some g => .ok g
    | none => .error (.missingKey (Text.Quoted.text name))

/-- The context from which a parser starts that is called without one. -/
def Parser.defaultContext {δ : Type} : Parser δ → Value
  | .unary (.context initial) _ => initial
  | _ => .emptyTable

end Descent
