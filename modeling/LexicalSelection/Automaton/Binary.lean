import LexicalSelection.Automaton.Basic
import LexicalSelection.Codec.Integer
import LexicalSelection.Codec.Word

/-!
# Stored automata

An automaton is stored as the numbers of its states and arcs, the number of arcs of each state, the
table of arcs in records of eight bytes, and the list of its final states.

* `Automaton.write`, `Automaton.read` — the format.
-/

namespace LexicalSelection.Automaton

/-! ## Writing -/

/-- The differences between neighbours. -/
def gaps : List Nat → List Nat
  | a :: b :: rest => (b - a) :: gaps (b :: rest)
  | _ => []

/-- The record of an arc. -/
def writeArc (arc : Arc) : Bytes := Codec.writeWord 4 arc.symbol ++ Codec.writeWord 4 arc.target

/-- The bytes of an automaton. -/
def write (automaton : Automaton) : Bytes :=
  Codec.writeNat automaton.size ++ Codec.writeNat automaton.table.length
    ++ (gaps automaton.offsets).flatMap Codec.writeNat
    ++ automaton.table.flatMap writeArc
    ++ Codec.writeNat automaton.finals.length ++ automaton.finals.flatMap Codec.writeNat

/-! ## Reading -/

/-- Where the arcs of some more states end, when those before them end at `total`.  The ends must
stay within the expected number of arcs and come to it, and must fit into 32 bits. -/
def readEnds (expected : Nat) : Nat → Nat → Decoder (List Nat)
  | 0, total => if total = expected then pure [] else throw (.arcCount expected total)
  | states + 1, total => do
      let total := min (total + (← Codec.readNat)) 0xFFFFFFFFFFFFFFFF
      if expected < total ∨ 0x100000000 ≤ total then throw (.arcCount expected total)
      else return total :: (← readEnds expected states total)

/-- The arc in the next record. -/
def readArc : Decoder Arc := do return ⟨← Codec.readWord 4, ← Codec.readWord 4⟩

/-- The next state number, which must be one of `count` states. -/
def readState (count : Nat) : Decoder Nat := do
  let state ← Codec.readNat
  if state < count then return state else throw (.stateOutOfRange state count)

/-- The automaton at the front of a byte string. -/
def read : Decoder Automaton := do
  let states ← Codec.readNat
  let arcCount ← Codec.readNat
  if states = 0 ∨ 0x100000000 ≤ states then throw (.stateOutOfRange states 0)
  let ends ← readEnds arcCount states 0
  let table ← Decoder.times readArc arcCount
  match table.find? (states ≤ ·.target) with
  | some arc => throw (.stateOutOfRange arc.target states)
  | none =>
    let finals ← Decoder.times (readState states) (← Codec.readNat)
    return { offsets := 0 :: ends, table
             finalFlags := (List.range states).map finals.contains }

end LexicalSelection.Automaton
