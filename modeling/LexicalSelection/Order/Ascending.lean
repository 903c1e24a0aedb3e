/-!
# Ascending lists

A set of things with an order is kept as the list of its members in strictly ascending order, and a
map as the list of its entries with strictly ascending keys.  Two sets with the same members are
then the same list, so a set can be a key, a part of an answer or one side of an equation.

* `Ascending.insert`, `Ascending.union`, `Ascending.ofList` — sets.
* `Ascending.alter`, `Ascending.put` — maps.
-/

namespace LexicalSelection.Ascending

variable {α κ β : Type} [Ord α] [Ord κ]

/-! ## Sets -/

/-- The set with `x` added: `x` stands before the first larger member, and a member that compares
equal to it stays as it is. -/
def insert (x : α) : List α → List α
  | [] => [x]
  | y :: ys =>
    match compare x y with
    | .lt => x :: y :: ys
    | .eq => y :: ys
    | .gt => y :: insert x ys

/-- The union of a set that begins with `x` and another set, when `join` makes the union of the rest
of the former and any set. -/
def unionFrom (x : α) (join : List α → List α) : List α → List α
  | [] => x :: join []
  | y :: ys =>
    match compare x y with
    | .lt => x :: join (y :: ys)
    | .eq => x :: join ys
    | .gt => y :: unionFrom x join ys

/-- The union of two sets. -/
def union : List α → List α → List α
  | [], set => set
  | x :: xs, set => unionFrom x (union xs) set

/-- The unions of neighbours in a row of sets. -/
def unionPairs : List (List α) → List (List α)
  | first :: second :: rest => union first second :: unionPairs rest
  | sets => sets

/-- The union of a row of sets, made in rounds that halve the row; so many rounds that the row is at
most one set at the end. -/
def unionAll : Nat → List (List α) → List α
  | 0, sets => sets.flatten
  | rounds + 1, sets => unionAll rounds (unionPairs sets)

/-- The members of a list as a set. -/
def ofList (xs : List α) : List α := unionAll (Nat.log2 xs.length + 1) (xs.map ([·]))

/-! ## Maps -/

/-- The map in which `k` holds what `f` makes of the value it held before, if it held one. -/
def alter (k : κ) (f : Option β → β) : List (κ × β) → List (κ × β)
  | [] => [(k, f none)]
  | (l, b) :: rest =>
    match compare k l with
    | .lt => (k, f none) :: (l, b) :: rest
    | .eq => (l, f (some b)) :: rest
    | .gt => (l, b) :: alter k f rest

/-- The map in which `k` holds `b`, whatever it held before. -/
def put (k : κ) (b : β) (map : List (κ × β)) : List (κ × β) := alter k (fun _ => b) map

/-- The value that `k` holds. -/
def find? (k : κ) : List (κ × β) → Option β
  | [] => none
  | (l, b) :: rest => if compare k l = .eq then some b else find? k rest

end LexicalSelection.Ascending
