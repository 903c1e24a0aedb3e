import LexicalSelection.Location

/-!
# Tables of weights

A table holds a weight for some pairs of locations.  It has a row for each first location and in it
an entry for each second one, all in ascending order.

* `WeightTable.find?`, `WeightTable.get` — the weight of a pair.
* `WeightTable.set`, `WeightTable.setNew` — a weight stored, always or only if there was none.
* `WeightTable.scored` — the pairs among some active locations that have a weight.
* `WeightTable.score` — the sum of those weights.
-/

namespace LexicalSelection

/-- The weights of pairs with one first location, by their second location. -/
abbrev WeightRow (α : Type) := List (Location × α)

/-- Weights of pairs, by their first location. -/
structure WeightTable (α : Type) where
  /-- The rows by first location. -/
  rows : List (Location × WeightRow α) := []
  deriving DecidableEq

namespace WeightTable

variable {α : Type}

/-- The weight of two locations, the smaller one given first. -/
def find? (table : WeightTable α) (first second : Location) : Option α := do
  Ascending.find? second (← Ascending.find? first table.rows)

/-- The weight of a pair; a pair without one has weight 0. -/
def get [Zero α] (table : WeightTable α) (pair : Pair) : α :=
  (table.find? pair.first pair.second).getD 0

/-- The table in which a pair holds what `f` makes of the weight it held before. -/
def alter (pair : Pair) (f : Option α → α) (table : WeightTable α) : WeightTable α :=
  ⟨Ascending.alter pair.first (fun row => Ascending.alter pair.second f (row.getD [])) table.rows⟩

/-- The table in which a pair has a weight. -/
def set (pair : Pair) (weight : α) (table : WeightTable α) : WeightTable α :=
  table.alter pair fun _ => weight

/-- The table in which a pair has a weight unless it had one before. -/
def setNew (pair : Pair) (weight : α) (table : WeightTable α) : WeightTable α :=
  table.alter pair (·.getD weight)

/-- All pairs with their weights, row by row. -/
def entries (table : WeightTable α) : List (Pair × α) :=
  table.rows.flatMap fun (first, row) => row.map fun (second, weight) =>
    (Pair.of first second, weight)

/-- The number of weights. -/
def size (table : WeightTable α) : Nat := table.entries.length

/-! ## Scores -/

/-- The pairs of two of the active locations that have a weight, with it.  The locations are given
in ascending order, and the pairs come in ascending order. -/
def scored (table : WeightTable α) : List Location → List (Pair × α)
  | [] => []
  | first :: rest =>
    (match Ascending.find? first table.rows with
      | none => []
      | some row => rest.filterMap fun second =>
        (Ascending.find? second row).map (Pair.of first second, ·)) ++ table.scored rest

/-- The sum of the weights of all pairs of active locations, added one by one. -/
def score [Zero α] [Add α] (table : WeightTable α) (active : List Location) : α :=
  (table.scored active).foldl (fun total (_, weight) => total + weight) 0

end WeightTable

end LexicalSelection
