import LexicalSelection.Text.Basic
import LexicalSelection.Order.Ascending

/-!
# Features at positions

A weight belongs to two features, each at a position relative to the unit that is being decided.
The two have no order of their own, so a pair keeps the smaller one first.

* `Location` — a feature at a position, ordered by position and then by feature.
* `Pair` — two locations in order; `Pair.of` puts them in order.
* `Pair.unary` — a location beside the universal feature at the unit itself.
-/

namespace LexicalSelection

/-- A feature at a position.  Position 0 is the unit that is being decided, negative positions lie
before it and positive ones behind it. -/
structure Location where
  /-- The distance from the unit that is being decided. -/
  position : Int
  /-- The number of the feature. -/
  feature : Nat
  deriving DecidableEq, Repr

namespace Location

/-- Locations are ordered by position and, at one position, by feature. -/
instance : Ord Location where
  compare := compareLex (compareOn position) (compareOn feature)

instance : Std.TransOrd Location :=
  inferInstanceAs (Std.TransCmp (compareLex (compareOn position) (compareOn feature)))

instance : Std.LawfulEqOrd Location where
  eq_of_compare {a b} h := by
    obtain ⟨h₁, h₂⟩ := Ordering.then_eq_eq.1 h
    obtain ⟨p, f⟩ := a
    obtain ⟨q, g⟩ := b
    obtain rfl : p = q := Std.LawfulEqOrd.eq_of_compare h₁
    obtain rfl : f = g := Std.LawfulEqOrd.eq_of_compare h₂
    rfl

/-- The feature that every reading has. -/
def universalFeature : Nat := 0

/-- The universal feature at the unit that is being decided: it is always there. -/
def universal : Location := ⟨0, universalFeature⟩

/-- A location by its numbers, as in `-2:7`. -/
def text (loc : Location) : Text := Text.ofInt loc.position ++ ':' :: Text.ofNat loc.feature

end Location

/-- Two locations, the smaller one first. -/
structure Pair where
  /-- The smaller location. -/
  first : Location
  /-- The larger location. -/
  second : Location
  /-- The two are in order. -/
  ordered : compare first second ≠ .gt
  deriving DecidableEq

namespace Pair

/-- The pair of two locations given in any order. -/
def of (a b : Location) : Pair :=
  if h : compare a b = .gt then ⟨b, a, by simp [Std.OrientedCmp.lt_of_gt h]⟩ else ⟨a, b, h⟩

/-- The pair of one location: its partner is the universal feature at the unit itself. -/
def unary (loc : Location) : Pair := of loc .universal

/-- The location that a pair is about, when the other is its universal partner. -/
def unary? (pair : Pair) : Option Location :=
  if pair.first = .universal then some pair.second
  else if pair.second = .universal then some pair.first
  else none

/-- Pairs are ordered by their first location and then by their second. -/
instance : Ord Pair where
  compare := compareLex (compareOn first) (compareOn second)

/-- The order of the two locations given to `of` does not matter. -/
theorem of_comm (a b : Location) : of a b = of b a := by
  unfold of
  by_cases hab : compare a b = .gt
  · have hba : compare b a ≠ .gt := by simp [Std.OrientedCmp.lt_of_gt hab]
    simp [hab, hba]
  · by_cases hba : compare b a = .gt
    · simp [hab, hba]
    · have h : compare a b = .eq := by
        cases h : compare a b with
        | eq => rfl
        | gt => exact absurd h hab
        | lt => exact absurd (Std.OrientedCmp.gt_of_lt h) hba
      obtain rfl := Std.LawfulEqOrd.eq_of_compare h
      simp

end Pair

end LexicalSelection
