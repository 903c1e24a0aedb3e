import LexicalSelection.Training.Corpus

/-!
# Training weights

Weights are trained by an averaged perceptron.  Each unit with several targets is scored with the
right choices around it; when another target than the right one comes out best, the pairs that count
for the right one alone gain 1 and those that count for the other alone lose 1.  After a pass over
the corpus each changed weight is replaced by its mean over the pass.

* `Perceptron.instanceUpdates` — what one unit changes.
* `Perceptron.Pass` — a pass under way, with what is needed for the means.
* `Perceptron.iterate` — a whole pass.
* `Perceptron.train` — several passes.
-/

namespace LexicalSelection.Perceptron

variable {α : Type}

/-! ## One unit -/

/-- The features of the right targets of examples that lie one before the other, the first one at
this distance. -/
def goldBefore (distance : Nat) : List Example → List Location
  | [] => []
  | ex :: rest => ex.unit.targetLocations (-distance) ex.gold ++ goldBefore (distance + 1) rest

/-- The features around a unit: the sources of all units in the window, and the right targets of
those before. -/
def context (model : Model α) (before : List Example) (unit : LexicalUnit) (behind : Sentence) :
    List Location :=
  LexicalUnit.sourcesBefore 1 ((before.take model.lookbehind).map Example.unit)
    ++ goldBefore 1 (before.take model.lookbehind)
    ++ LexicalUnit.sourcesFrom 0 (unit :: (behind.take model.lookahead).map Example.unit)

/-- The features that count for a target. -/
def activeLocations (model : Model α) (before : List Example) (unit : LexicalUnit)
    (behind : Sentence) (target : Reading) : List Location :=
  Ascending.ofList (context model before unit behind ++ target.locations 0)

/-- The place of the first of the largest numbers, where `best` stands at `place` and is the largest
so far, and the next one stands at `next`. -/
def firstMax [LT α] [DecidableLT α] (place : Nat) (best : α) (next : Nat) : List α → Nat
  | [] => place
  | x :: rest =>
    if best < x then firstMax next x (next + 1) rest else firstMax place best (next + 1) rest

/-- The place of the first of the largest numbers of a list. -/
def indexOfMax [LT α] [DecidableLT α] : List α → Nat
  | [] => 0
  | x :: rest => firstMax 0 x 1 rest

/-- What is added to weights when the pairs that count for the right target and for the chosen one
are these. -/
def updates [One α] [Neg α] (right chosen : List Pair) : List (Pair × α) :=
  (right.filter (· ∉ chosen)).map (·, 1) ++ (chosen.filter (· ∉ right)).map (·, -1)

/-- What an example changes; nothing when the right target comes out best. -/
def instanceUpdates [Zero α] [One α] [Neg α] [Add α] [LT α] [DecidableLT α] (model : Model α)
    (before : List Example) (current : Example) (behind : Sentence) : Option (List (Pair × α)) :=
  let active := current.unit.targets.map (activeLocations model before current.unit behind)
  let best := indexOfMax (active.map model.weights.score)
  if best = current.gold then none
  else
    let pairsOf := fun index => (model.weights.scored (active[index]?.getD [])).map Prod.fst
    some (updates (pairsOf current.gold) (pairsOf best))

/-! ## Means -/

/-- What is known of a weight's values in a pass: their sum over the instances before the last
change, and the instance of that change. -/
structure Account (α : Type) where
  /-- The weight before the pass, and its values summed up to the last change. -/
  total : α
  /-- The number of the instance that changed the weight last; 0 for none. -/
  changed : Nat
  deriving DecidableEq

/-- A pass over a corpus under way. -/
structure Pass (α : Type) where
  /-- The model with the weights in force. -/
  model : Model α
  /-- The accounts of the weights. -/
  accounts : List (Pair × Account α)
  /-- The number of units with several targets so far. -/
  instances : Nat := 0
  /-- The number of those for which the right target did not come out best. -/
  mistakes : Nat := 0

/-- The beginning of a pass. -/
def start (model : Model α) : Pass α :=
  { model
    accounts := model.weights.entries.foldl (fun accounts (pair, weight) =>
      Ascending.put pair ⟨weight, 0⟩ accounts) [] }

variable [Zero α] [One α] [Neg α] [Add α] [Mul α] [Div α] [NatCast α] [LT α] [DecidableLT α]

/-- An account after its weight, which was `old` since the last change, has changed in an
instance. -/
def Account.charge (old : α) (now : Nat) (account : Account α) : Account α :=
  { total := account.total + old * ((now - account.changed : Nat) : α), changed := now }

/-- The mean of a weight that is `current` at the end of a pass with this many instances. -/
def Account.mean (current : α) (instances : Nat) (account : Account α) : α :=
  (account.total + current * ((instances - account.changed : Nat) : α)) / (instances : α)

/-- The pass after an addition to a weight. -/
def Pass.update (pass : Pass α) (pair : Pair) (delta : α) : Pass α :=
  let old := pass.model.weights.get pair
  { pass with
    model := pass.model.setWeight pair (old + delta)
    accounts := Ascending.alter pair
      (fun account => (account.getD ⟨0, 0⟩).charge old pass.instances) pass.accounts }

/-- The pass after one example more. -/
def Pass.visit (pass : Pass α) (before : List Example) (current : Example) (behind : Sentence) :
    Pass α :=
  if current.unit.ambiguous then
    let pass := { pass with instances := pass.instances + 1 }
    match instanceUpdates pass.model before current behind with
    | none => pass
    | some changes =>
      changes.foldl (fun pass (pair, delta) => pass.update pair delta)
        { pass with mistakes := pass.mistakes + 1 }
  else pass

/-- The pass after the rest of a sentence, with the examples before it, the last one first. -/
def Pass.visitSentence (pass : Pass α) (before : List Example) : Sentence → Pass α
  | [] => pass
  | current :: behind =>
    (pass.visit before current behind).visitSentence (current :: before) behind

/-- The model in which each changed weight is the mean of its values in a pass. -/
def Pass.finish (pass : Pass α) : Model α :=
  pass.accounts.foldl (fun model (pair, account) =>
    if 0 < account.changed then
      model.setWeight pair (account.mean (model.weights.get pair) pass.instances)
    else model) pass.model

/-- A whole pass over a corpus. -/
def iterate (corpus : Corpus) (model : Model α) : Pass α × Model α :=
  let pass := corpus.foldl (fun pass sentence => pass.visitSentence [] sentence) (start model)
  (pass, pass.finish)

/-! ## Training -/

/-- What a training came to. -/
structure Summary where
  /-- The number of passes. -/
  iterations : Nat := 0
  /-- The number of units with several targets in the last pass. -/
  instances : Nat := 0
  /-- The number of those for which the right target did not come out best. -/
  mistakes : Nat := 0
  deriving DecidableEq, Repr

/-- Some passes more, behind those of a summary. -/
def trainFrom (corpus : Corpus) : Nat → Summary → Model α → Summary × Model α
  | 0, summary, model => (summary, model)
  | passes + 1, summary, model =>
    let (pass, model) := iterate corpus model
    trainFrom corpus passes
      { iterations := summary.iterations + 1, instances := pass.instances
        mistakes := pass.mistakes } model

/-- The model after some passes over a corpus, and what they came to. -/
def train (corpus : Corpus) (passes : Nat) (model : Model α) : Summary × Model α :=
  trainFrom corpus passes {} model

end LexicalSelection.Perceptron
