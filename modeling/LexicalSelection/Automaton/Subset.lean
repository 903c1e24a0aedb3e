import LexicalSelection.Automaton.Graph
import LexicalSelection.Number.Power

/-!
# Determinizing and minimizing graphs

A graph is determinized by following all of its runs at once: the states of the result are sets of
states of the graph, numbered in the order in which they are found.  Doing so to the reversed graph,
and then to the reverse of the outcome, leaves the smallest deterministic graph.

* `Graph.reverse` — all arcs turned round.
* `Graph.moves` — the sets of states that one step from a set leads to.
* `Graph.determinize` — the subset construction.
* `Graph.minimize` — the smallest deterministic graph without dead ends.
-/

namespace LexicalSelection.Graph

/-! ## Reversal -/

/-- The arcs that end in a state, turned round. -/
def arcsInto (graph : Graph) (state : Nat) : List Arc :=
  Ascending.ofList <| graph.nodes.zipIdx.flatMap fun (node, source) =>
    (node.arcs.filter (·.target = state)).map fun arc => ⟨arc.symbol, source⟩

/-- The graph with all arcs turned round, and initial and final states exchanged. -/
def reverse (graph : Graph) : Graph :=
  { initials := graph.finals
    nodes := (List.range graph.size).map fun state =>
      { arcs := graph.arcsInto state, final := graph.initials.contains state } }

/-! ## Subset construction -/

/-- The steps that leave a set of states: each symbol in ascending order, with the set of states
that it leads to. -/
def moves (graph : Graph) (subset : List Nat) : List (Nat × List Nat) :=
  (subset.flatMap graph.arcs).foldr
    (fun arc moves => Ascending.alter arc.symbol
      (fun targets => Ascending.insert arc.target (targets.getD [])) moves) []

/-- The number of a set among the known ones.  One that is new comes behind them. -/
def numberSubset (known : List (List Nat)) (subset : List Nat) : Nat × List (List Nat) :=
  match known.idxOf? subset with
  | some number => (number, known)
  | none => (known.length, known ++ [subset])

/-- The arcs for the steps that leave a set, and the known sets with the new ones behind them. -/
def numberMoves (known : List (List Nat)) : List (Nat × List Nat) → List Arc × List (List Nat)
  | [] => ([], known)
  | (symbol, subset) :: rest =>
    let (target, known) := numberSubset known subset
    let (arcs, known) := numberMoves known rest
    (⟨symbol, target⟩ :: arcs, known)

/-- The subset construction under way: `done` holds the states for the first of the known sets, and
each round makes the state for the next set, until there is one for every set. -/
def explore (graph : Graph) : Nat → List Node → List (List Nat) → List Node
  | 0, done, _ => done
  | rounds + 1, done, known =>
    match known[done.length]? with
    | none => done
    | some subset =>
      let (arcs, known) := numberMoves known (graph.moves subset)
      graph.explore rounds (done ++ [{ arcs, final := subset.any graph.isFinal }]) known

/-- The deterministic graph with the same runs.  It has at most as many states as there are sets of
states of the graph. -/
def determinize (graph : Graph) : Graph :=
  { initials := [0]
    nodes := graph.explore (twoTo graph.size) [] [Ascending.ofList graph.initials] }

/-- The smallest deterministic graph with the same accepted words. -/
def minimize (graph : Graph) : Graph := graph.reverse.determinize.reverse.determinize

end LexicalSelection.Graph
