import LexicalSelection.Embedding.Generator
import LexicalSelection.Embedding.Vocabulary

/-!
# Word vectors

Each number of a vocabulary gets a vector that tells which numbers stand near it.  Two vectors of
numbers are drawn together when the one stands near the other in a sentence, and pushed apart when
the other has been drawn at random.

* `Settings` — what a training goes by.
* `Layers` — the vectors of words, and those of their neighbours.
* `Settings.train` — the layers that a corpus gives.
-/

namespace LexicalSelection.Embedding

/-- What a training goes by. -/
structure Settings where
  /-- How many words before and behind a word are its neighbours. -/
  window : Nat := 5
  /-- How often a word must occur to have a number of its own. -/
  minCount : Nat := 5
  /-- How far a vector moves at each step. -/
  learningRate : Float := 0.005
  /-- How many components a vector has. -/
  dimension : Nat := 100
  /-- How many numbers are drawn at random for each neighbour. -/
  negativeSamples : Nat := 5
  /-- How often the corpus is gone through. -/
  iterations : Nat := 5
  /-- How many entries the table has that numbers are drawn from. -/
  tableSize : Nat := 1000000
  /-- What the random numbers depend on. -/
  seed : Nat := 1

/-- The components of a vector. -/
abbrev Components := List Float

/-- The vectors of a training. -/
structure Layers where
  /-- The vector of each number as a word. -/
  hidden : Array Components := #[]
  /-- The vector of each number as a neighbour. -/
  output : Array Components := #[]

/-- The vector of a number; it has no components where there is none. -/
def Layers.vector (layers : Layers) (id : Nat) : Components := layers.hidden[id]?.getD []

/-! ## The logistic function -/

/-- From this number on the logistic function counts as 1, and from its opposite down as 0. -/
def logisticBound : Float := 6

/-- In how many steps the logistic function is known between the bounds. -/
def logisticSteps : Nat := 1000

/-- The logistic function at the start of a step. -/
def logisticAt (place : Nat) : Float :=
  let e := ((place.toFloat / logisticSteps.toFloat * 2 - 1) * logisticBound).exp
  e / (e + 1)

/-- The logistic function. -/
def logistic (x : Float) : Float :=
  if logisticBound ≤ x then 1
  else if x ≤ -logisticBound then 0
  else
    let place := (x + logisticBound) * (logisticSteps.toFloat / logisticBound / 2)
    logisticAt (min place.toUInt64.toNat (logisticSteps - 1))

/-! ## The table of random neighbours -/

/-- How much a word weighs that occurs `count` times. -/
def samplingWeight (count : Nat) : Float := count.toFloat.pow 0.75

/-- Fills the last `left` of `size` entries: with `id` as long as they lie in its share, which ends
at the fraction `cumulative` of the table, and then with the numbers behind it, whose counts these
are. -/
def fillTable (size : Nat) (total : Float) :
    (left id : Nat) → (cumulative : Float) → (counts : List Nat) → Array Nat → Array Nat
  | 0, _, _, _, table => table
  | left + 1, id, cumulative, [], table =>
    fillTable size total left id cumulative [] (table.push id)
  | left + 1, id, cumulative, next :: counts, table =>
    if cumulative < (size - left).toFloat / size.toFloat then
      fillTable size total left (id + 1) (cumulative + samplingWeight next / total) counts
        (table.push id)
    else fillTable size total left id cumulative (next :: counts) (table.push id)

/-- The table that numbers are drawn from: each has a share in proportion to its weight, and 0 has
none. -/
def samplingTable (size : Nat) (vocabulary : Vocabulary) : Array Nat :=
  match vocabulary.words.map Word.count with
  | [] => #[]
  | first :: counts =>
    let total := ((first :: counts).map samplingWeight).foldl (· + ·) 0
    fillTable size total size 1 (samplingWeight first / total) counts #[]

/-! ## Steps -/

/-- The product of two vectors. -/
def dot (x y : Components) : Float := (x.zipWith (· * ·) y).foldl (· + ·) 0

/-- A multiple of a vector added to another one. -/
def addMultiple (factor : Float) (x y : Components) : Components :=
  y.zipWith (fun b a => b + factor * a) x

/-- A training under way at a word: the layers, and how far the vector of the word is to move. -/
structure Step where
  /-- The vector of each number as a neighbour. -/
  output : Array Components
  /-- The change of the vector of the word. -/
  change : Components

/-- One step for a word with vector `hidden` and another number, which is a neighbour when `label`
is 1, and none when it is 0.  The vector of the other number moves at once. -/
def Step.toward (rate : Float) (hidden : Components) (label : Float) (other : Nat) (step : Step) :
    Step :=
  match step.output[other]? with
  | none => step
  | some vector =>
    let factor := (label - logistic (dot hidden vector)) * rate
    { output := step.output.modify other (addMultiple factor hidden)
      change := addMultiple factor vector step.change }

/-- A number drawn from a table. -/
def draw (table : Array Nat) : StateM Generator Nat := do
  return table[← Generator.below table.size]?.getD 0

/-- Steps for numbers drawn from a table, without those that are neighbours. -/
def Step.awayFromDrawn (rate : Float) (hidden : Components) (table neighbours : Array Nat) :
    Nat → Step → StateM Generator Step
  | 0, step => pure step
  | left + 1, step => do
    let other ← draw table
    awayFromDrawn rate hidden table neighbours left
      (if neighbours.contains other then step else step.toward rate hidden 0 other)

/-- Steps for the neighbours of a word, and for numbers drawn for each of them. -/
def Step.overNeighbours (settings : Settings) (hidden : Components)
    (table neighbours : Array Nat) : List Nat → Step → StateM Generator Step
  | [], step => pure step
  | neighbour :: rest, step => do
    let step := step.toward settings.learningRate hidden 1 neighbour
    let samples := if table.isEmpty then 0 else settings.negativeSamples
    let step ← step.awayFromDrawn settings.learningRate hidden table neighbours samples
    overNeighbours settings hidden table neighbours rest step

/-! ## Passes -/

/-- The distinct neighbours of a word, with the numbers before it, the last one first, and those
behind it. -/
def neighboursOf (window : Nat) (before behind : List Nat) : List Nat :=
  Ascending.ofList (before.take window ++ behind.take window)

/-- The layers after a word.  Its own vector moves when all of its neighbours have had their
steps. -/
def Layers.visit (settings : Settings) (table : Array Nat) (layers : Layers)
    (before : List Nat) (id : Nat) (behind : List Nat) : StateM Generator Layers := do
  let neighbours := neighboursOf settings.window before behind
  let hidden := layers.vector id
  let step : Step :=
    { output := layers.output, change := List.replicate settings.dimension 0 }
  let step ← step.overNeighbours settings hidden table neighbours.toArray neighbours
  return { hidden := layers.hidden.modify id fun vector => vector.zipWith (· + ·) step.change
           output := step.output }

/-- The layers after the rest of a sentence, with the numbers before it, the last one first. -/
def Layers.visitSentence (settings : Settings) (table : Array Nat) (layers : Layers)
    (before : List Nat) : List Nat → StateM Generator Layers
  | [] => pure layers
  | id :: behind => do
    let layers ← layers.visit settings table before id behind
    layers.visitSentence settings table (id :: before) behind

/-- The layers after some passes over the sentences. -/
def Layers.iterate (settings : Settings) (table : Array Nat) (sentences : List (List Nat)) :
    Nat → Layers → StateM Generator Layers
  | 0, layers => pure layers
  | passes + 1, layers => do
    let layers ← sentences.foldlM
      (fun (layers : Layers) sentence => layers.visitSentence settings table [] sentence) layers
    iterate settings table sentences passes layers

/-! ## Training -/

/-- Random components around 0, the smaller the more of them there are. -/
def randomComponents (dimension : Nat) : Nat → StateM Generator Components
  | 0 => pure []
  | left + 1 => do
    let component := ((← Generator.fraction) - 0.5) / dimension.toFloat
    return component :: (← randomComponents dimension left)

/-- Random vectors. -/
def randomLayer (dimension : Nat) : Nat → StateM Generator (List Components)
  | 0 => pure []
  | left + 1 => do
    let vector ← randomComponents dimension dimension
    return vector :: (← randomLayer dimension left)

/-- The layers that a corpus gives.  Word vectors start at random and neighbour vectors at zero. -/
def Settings.train (settings : Settings) (corpus : NumberedCorpus) : StateM Generator Layers := do
  let size := corpus.vocabulary.size
  let hidden ← randomLayer settings.dimension size
  let layers : Layers :=
    { hidden := hidden.toArray
      output := Array.replicate size (List.replicate settings.dimension 0) }
  layers.iterate settings (samplingTable settings.tableSize corpus.vocabulary) corpus.sentences
    settings.iterations

end LexicalSelection.Embedding
