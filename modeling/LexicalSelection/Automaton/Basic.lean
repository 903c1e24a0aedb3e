import LexicalSelection.Automaton.Subset

/-!
# Automata

An automaton is a graph laid out for running: the arcs of all states in one table, with the places
where the arcs of each state begin.  It starts in state 0 and follows all runs at once, so that
where it is after some steps is a set of states.

* `Automaton.ofGraph` — a graph laid out.
* `Automaton.arcs`, `Automaton.targets` — the arcs of a state, all of them or those for a symbol.
* `Automaton.step` — the states one step on, when any of several symbols is offered.
-/

namespace LexicalSelection

/-- A graph laid out for running. -/
structure Automaton where
  /-- Where the arcs of each state begin in the table, and where the last ones end. -/
  offsets : List Nat
  /-- The arcs of all states. -/
  table : List Arc
  /-- Which states are final. -/
  finalFlags : List Bool
  deriving DecidableEq, Repr

namespace Automaton

/-- The sums of a list's beginnings, `total` added to each. -/
def runningSums (total : Nat) : List Nat → List Nat
  | [] => [total]
  | n :: rest => total :: runningSums (total + n) rest

/-- A graph laid out.  Its first state becomes the state where all runs start. -/
def ofGraph (graph : Graph) : Automaton :=
  { offsets := runningSums 0 (graph.nodes.map (·.arcs.length))
    table := graph.nodes.flatMap Node.arcs
    finalFlags := graph.nodes.map Node.final }

/-- The state where runs start. -/
def initial : Nat := 0

/-- The number of states. -/
def size (automaton : Automaton) : Nat := automaton.finalFlags.length

/-- The arcs that leave a state. -/
def arcs (automaton : Automaton) (state : Nat) : List Arc :=
  match automaton.offsets[state]?, automaton.offsets[state + 1]? with
  | some first, some behind => (automaton.table.drop first).take (behind - first)
  | _, _ => []

/-- The states that the arcs for a symbol lead to.  The arcs are looked at from the front.  Looking
the first one up by halving finds the same where the arcs of each state are in order, as they are
for a graph that has been built or minimized.  The arcs of an automaton that has been read may be in
any order, and there the two may differ. -/
def targets (automaton : Automaton) (state symbol : Nat) : List Nat :=
  (((automaton.arcs state).dropWhile (·.symbol < symbol)).takeWhile (·.symbol = symbol)).map
    Arc.target

/-! ## Final states -/

/-- Is the state final? -/
def isFinal (automaton : Automaton) (state : Nat) : Bool :=
  automaton.finalFlags[state]?.getD false

/-- The final states in ascending order. -/
def finals (automaton : Automaton) : List Nat :=
  (List.range automaton.size).filter automaton.isFinal

/-- The automaton with other final states.  Numbers that no state has are left out. -/
def withFinals (states : List Nat) (automaton : Automaton) : Automaton :=
  { automaton with finalFlags := (List.range automaton.size).map states.contains }

/-! ## Running -/

/-- The states where every run starts. -/
def start : List Nat := [initial]

/-- The states one step on from the active ones, in ascending order, when a run may take an arc for
any of the offered symbols. -/
def step (automaton : Automaton) (offered : List Nat) (active : List Nat) : List Nat :=
  Ascending.ofList (active.flatMap fun state => offered.flatMap (automaton.targets state))

/-- The symbols that are offered for a thing with an own symbol, or none, and a wildcard. -/
def eitherOf (exact : Option Nat) (wildcard : Nat) : List Nat :=
  match exact with
  | some symbol => if symbol = wildcard then [wildcard] else [symbol, wildcard]
  | none => [wildcard]

end Automaton

end LexicalSelection
