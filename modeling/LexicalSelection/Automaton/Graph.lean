import LexicalSelection.Order.Ascending

/-!
# State graphs

A graph has states, numbered from 0, and arcs with a symbol from state to state.  Any number of arcs
with one symbol may leave a state, and any number of states may be initial or final.

* `Graph.start` — the graph with one state, which is initial.
* `Graph.addState`, `Graph.addArc`, `Graph.link`, `Graph.setFinal` — the steps that build a graph.
-/

namespace LexicalSelection

/-- An arc to a state, for one symbol. -/
structure Arc where
  /-- The symbol that the arc is for. -/
  symbol : Nat
  /-- The state at its end. -/
  target : Nat
  deriving DecidableEq, Repr

/-- Arcs are ordered by symbol and then by target. -/
instance : Ord Arc where
  compare := compareLex (compareOn Arc.symbol) (compareOn Arc.target)

instance : Std.TransOrd Arc :=
  inferInstanceAs (Std.TransCmp (compareLex (compareOn Arc.symbol) (compareOn Arc.target)))

instance : Std.LawfulEqOrd Arc where
  eq_of_compare {a b} h := by
    obtain ⟨h₁, h₂⟩ := Ordering.then_eq_eq.1 h
    obtain ⟨p, f⟩ := a
    obtain ⟨q, g⟩ := b
    obtain rfl : p = q := Std.LawfulEqOrd.eq_of_compare h₁
    obtain rfl : f = g := Std.LawfulEqOrd.eq_of_compare h₂
    rfl

/-- A state of a graph. -/
structure Node where
  /-- The arcs that leave it, in ascending order. -/
  arcs : List Arc := []
  /-- Is it final? -/
  final : Bool := false
  deriving DecidableEq, Repr

/-- A state graph. -/
structure Graph where
  /-- The initial states. -/
  initials : List Nat
  /-- The states by number. -/
  nodes : List Node
  deriving DecidableEq, Repr

namespace Graph

/-- The graph with one state, which is initial. -/
def start : Graph := ⟨[0], [{}]⟩

/-- The number of states. -/
def size (graph : Graph) : Nat := graph.nodes.length

/-- The arcs that leave a state. -/
def arcs (graph : Graph) (state : Nat) : List Arc := (graph.nodes[state]?.map Node.arcs).getD []

/-- Is the state final? -/
def isFinal (graph : Graph) (state : Nat) : Bool := (graph.nodes[state]?.map Node.final).getD false

/-- The numbers of the final states in ascending order. -/
def finals (graph : Graph) : List Nat := (List.range graph.size).filter graph.isFinal

/-- The number of a new state, and the graph with it. -/
def addState (graph : Graph) : Nat × Graph :=
  (graph.size, { graph with nodes := graph.nodes ++ [{}] })

/-- The graph with an arc between two of its states.  There is at most one for each symbol. -/
def link (source target symbol : Nat) (graph : Graph) : Graph :=
  { graph with
    nodes := graph.nodes.modify source fun node =>
      { node with arcs := Ascending.insert ⟨symbol, target⟩ node.arcs } }

/-- The number of a new state, and the graph with an arc from `source` to it. -/
def addArc (source symbol : Nat) (graph : Graph) : Nat × Graph :=
  let (target, graph) := graph.addState
  (target, graph.link source target symbol)

/-- The graph in which a state is final. -/
def setFinal (state : Nat) (graph : Graph) : Graph :=
  { graph with nodes := graph.nodes.modify state fun node => { node with final := true } }

end Graph

end LexicalSelection
