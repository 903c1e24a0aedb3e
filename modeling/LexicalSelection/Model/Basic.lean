import LexicalSelection.LexicalUnit
import LexicalSelection.Model.WeightTable
import LexicalSelection.Pattern.Matcher

/-!
# Models

A model says which features the readings of a unit have and how much pairs of them weigh.  Its
weights may be of any type with a zero and a sum.

* `Model` — settings, features with their patterns, weights, and the matcher of the patterns.
* `Model.readUnit` — a unit from the front of an input, with the features of its readings.
* `Model.featureId?`, `Model.featureName?` — names and numbers of features.
-/

namespace LexicalSelection

/-- A feature of readings. -/
structure Feature where
  /-- The name that rules use. -/
  name : Text
  /-- The patterns for the feature: one that matches is enough. -/
  patterns : List Text := []
  deriving DecidableEq, Repr

/-- What decides between readings. -/
structure Model (α : Type) where
  /-- How many hypotheses are kept for each unit; 0 keeps all. -/
  beam : Nat := 0
  /-- How many units before the current one are looked at. -/
  lookbehind : Nat := 0
  /-- How many units behind the current one are looked at. -/
  lookahead : Nat := 0
  /-- The features by number.  The universal feature is the first and has no name. -/
  features : List Feature := [{ name := [] }]
  /-- The weights of pairs of features at positions. -/
  weights : WeightTable α := {}
  /-- The patterns of all features, ready to be matched. -/
  matcher : Matcher := .compile []

namespace Model

variable {α : Type}

/-! ## Features -/

/-- The name of the feature with a number. -/
def featureName? (model : Model α) (id : Nat) : Option Text := model.features[id]?.map Feature.name

/-- The number of the feature with a name. -/
def featureId? (model : Model α) (name : Text) : Option Nat :=
  (model.features.map Feature.name).idxOf? name

/-- The patterns of all features, each with the number of its feature. -/
def patterns (model : Model α) : List (Nat × Text) :=
  model.features.zipIdx.flatMap fun (feature, id) => feature.patterns.map (id, ·)

/-- The model with a matcher for the patterns that its features have. -/
def rebuildMatcher (model : Model α) : Model α :=
  { model with matcher := .compile model.patterns }

/-! ## Units -/

/-- A reading of a side with its features, of which the universal feature is always one. -/
def annotate (model : Model α) (side : Side) (reading : Reading) : Reading :=
  model.matcher.annotate side (reading.addFeature Location.universalFeature)

/-- A unit whose readings have their features. -/
def annotateUnit (model : Model α) (unit : LexicalUnit) : LexicalUnit :=
  { unit with
    source := unit.source.map (model.annotate .source)
    targets := unit.targets.map (model.annotate .target) }

/-- The unit at the front of an input, with the features of its readings. -/
def readUnit (model : Model α) (input : Input) : Found LexicalUnit :=
  (LexicalUnit.read model.matcher.alphabet.tagNumber? input).map model.annotateUnit

/-- A unit is taken from the front, and one that is no end takes a character at least. -/
theorem readUnit_length {model : Model α} {input rest : Input} {unit : LexicalUnit}
    (h : model.readUnit input = .ok unit rest) :
    rest.length + (if unit.isEnd then 0 else 1) ≤ input.length := by
  obtain ⟨bare, hb, rfl⟩ := Input.map_eq_ok.1 h
  have := LexicalUnit.read_length hb
  simpa [annotateUnit, LexicalUnit.isEnd] using this

/-! ## Weights -/

/-- The model in which a pair has a weight. -/
def setWeight (pair : Pair) (weight : α) (model : Model α) : Model α :=
  { model with weights := model.weights.set pair weight }

end Model

end LexicalSelection
