import LexicalSelection.Model.Basic

/-!
# Deciding units

Readings are chosen with the help of what stands around them.  A unit with several targets cannot be
decided at once, since later choices depend on it: each way to choose the readings so far is kept as
a hypothesis, in layers, one for each unit, until a unit comes that leaves no choice.  Then the best
hypothesis is taken back through the layers, and the units up to there are written.

* `Hypothesis` — a choice for the last unit, its cost so far, and the hypothesis it continues.
* `Window` — the units that count and the layers over them.
* `Window.activeLocations` — the features that a choice is scored by.
* `Window.step` — the decision of one unit.
-/

namespace LexicalSelection

/-! ## Hypotheses -/

/-- A choice of readings up to some unit. -/
structure Hypothesis (α : Type) where
  /-- The score of all choices with its sign turned round, so that the best hypothesis is least. -/
  cost : α
  /-- The number of the target that is chosen for the unit. -/
  reading : Nat
  /-- The place of the hypothesis for the units before, in the layer before. -/
  previous : Nat
  deriving DecidableEq

namespace Hypothesis

variable {α : Type}

/-- The hypothesis before any choice. -/
def seed [Zero α] : Hypothesis α := ⟨0, 0, 0⟩

/-- Better hypotheses come first.  Of equally good ones the one with the earlier target does, and
then the one that continues the earlier hypothesis. -/
instance [Ord α] : Ord (Hypothesis α) where
  compare := compareLex (compareOn cost) (compareLex (compareOn reading) (compareOn previous))

end Hypothesis

/-- The hypotheses for one unit, the best one first. -/
abbrev Layer (α : Type) := List (Hypothesis α)

/-! ## Windows -/

/-- What is remembered from the decisions of a stream. -/
structure Window (α : Type) where
  /-- Units that have been written, each with its chosen target, the last one first. -/
  past : List LexicalUnit := []
  /-- Units with hypotheses that have not been written, the last one first. -/
  pending : List LexicalUnit := []
  /-- Units that have been read and have no hypotheses. -/
  ahead : List LexicalUnit := []
  /-- The layers over the pending units, and below them layers of seeds for the past ones and the
  start.  The last one comes first. -/
  layers : List (Layer α)
  /-- Has the end of the segment been read? -/
  ended : Bool := false
  /-- The score of all choices that have been written. -/
  score : α

namespace Window

variable {α : Type}

/-- Layers of seeds for a number of past units and the start. -/
def seedLayers [Zero α] (count : Nat) : List (Layer α) := List.replicate (count + 1) [.seed]

/-- The window before anything has been read. -/
def initial [Zero α] : Window α := { layers := seedLayers 0, score := 0 }

/-- The last units before the current one, as many as given, the last one first. -/
def before (count : Nat) (window : Window α) : List LexicalUnit :=
  (window.pending.take count ++ window.past).take count

/-- Of the pending units and the past ones behind them the first are taken. -/
theorem before_eq (count : Nat) (window : Window α) :
    window.before count = (window.pending ++ window.past).take count := by
  simp only [before, List.take_append, List.take_take, List.length_take, Nat.min_self]
  congr 2
  omega

/-! ## Active features -/

/-- The source features of the units around and at the current one. -/
def context (model : Model α) (window : Window α) : List Location :=
  LexicalUnit.sourcesBefore 1 (window.before model.lookbehind)
    ++ LexicalUnit.sourcesFrom 0 (window.ahead.take (model.lookahead + 1))

/-- The features of the targets that a hypothesis has chosen for the units before, which come with
the layers over them.  The first of the units is at this distance from the current one. -/
def pathLocations (distance place : Nat) : List (LexicalUnit × Layer α) → List Location
  | [] => []
  | (unit, layer) :: rest =>
    match layer[place]? with
    | none => []
    | some hypothesis =>
      unit.targetLocations (-distance) hypothesis.reading
        ++ pathLocations (distance + 1) hypothesis.previous rest

/-- The features that count for a target of the current unit, when it continues the hypothesis at a
place of the last layer. -/
def activeLocations (model : Model α) (window : Window α) (unit : LexicalUnit)
    (reading place : Nat) : List Location :=
  Ascending.ofList <|
    window.context model ++ unit.targetLocations 0 reading
      ++ pathLocations 1 place ((window.before model.lookbehind).zip window.layers)

/-! ## One unit -/

variable [Zero α] [Add α] [Sub α] [Ord α]

/-- All hypotheses for the current unit, the best one first. -/
def allHypotheses (model : Model α) (window : Window α) (unit : LexicalUnit) : Layer α :=
  Ascending.ofList <|
    (List.range (max 1 unit.targets.length)).flatMap fun reading =>
      (window.layers.headD []).zipIdx.map fun (hypothesis, place) =>
        { cost := hypothesis.cost
            - model.weights.score (window.activeLocations model unit reading place)
          reading, previous := place }

/-- The layer for the current unit: all hypotheses, or as many of the best as the beam takes. -/
def nextLayer (model : Model α) (window : Window α) (unit : LexicalUnit) : Layer α :=
  let layer := window.allHypotheses model unit
  if model.beam = 0 then layer else layer.take model.beam

/-- The targets that the hypothesis at a place has chosen for the last units, the last one first. -/
def choices (place : Nat) : Nat → List (Layer α) → List Nat
  | 0, _ => []
  | _, [] => []
  | count + 1, layer :: layers =>
    match layer[place]? with
    | none => []
    | some hypothesis => hypothesis.reading :: choices hypothesis.previous count layers

/-- A unit with the chosen target alone. -/
def keepChoice (choice : LexicalUnit × Nat) : LexicalUnit := choice.1.keepOnly choice.2

/-- A unit as it is written, with the chosen target behind the source reading. -/
def writeChoice (choice : LexicalUnit × Nat) : Text := choice.1.write choice.2 false true

/-- Writes the pending units and the current one with the targets of the best hypothesis. -/
def commit (model : Model α) (window : Window α) (layers : List (Layer α)) (unit : LexicalUnit)
    (ahead : List LexicalUnit) : Window α × Text :=
  let decided := unit :: window.pending
  let chosen := decided.zip (choices 0 decided.length layers)
  let past := (chosen.map keepChoice ++ window.past).take model.lookbehind
  let best := ((layers.headD []).head?.map Hypothesis.cost).getD 0
  ({ past, ahead, layers := seedLayers past.length, ended := window.ended
     score := window.score - best },
    chosen.reverse.flatMap writeChoice)

/-- Decides the first unit ahead.  A unit with several targets waits for the units behind it; any
other one is written, and with it all that wait. -/
def step (model : Model α) (window : Window α) : Window α × Text :=
  match window.ahead with
  | [] => (window, [])
  | unit :: ahead =>
    let layers := window.nextLayer model unit :: window.layers
    if unit.ambiguous then
      ({ window with pending := unit :: window.pending, ahead, layers }, [])
    else window.commit model layers unit ahead

end Window

end LexicalSelection
