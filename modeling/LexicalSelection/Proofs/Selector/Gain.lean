import LexicalSelection.Proofs.Selector.Layers
import Mathlib.Algebra.Group.Basic

/-!
# What decisions are worth

The worth of a row of decisions is said without any window: each decision is judged by the readings
around it in the stream, source readings and chosen targets, by their features and at their
distances from it.  Nothing of this depends on how the decisions were found.

* `Model.around` — the readings that a decision is judged by, and how far away they are.
* `Model.evidence` — the features of these readings.
* `Model.gain` — the sum of the weights of a row of decisions.
* **`gain_append`** — the gain of a row is that of its parts, each with its own surroundings.
* `Model.Settled` — enough units are known for the first of them to be judged.
* **`gain_later`** — units that come to be known after that change nothing.
-/

namespace LexicalSelection

/-! ## The readings around a decision -/

/-- The reading that a decision chooses, if the unit has a target. -/
def Decision.target (decision : Decision) : Option Reading := decision.1.targets[decision.2]?

/-- The units of the first segment: those up to the first end, which is one of them. -/
def LexicalUnit.throughEnd : List LexicalUnit → List LexicalUnit
  | [] => []
  | unit :: units => if unit.isEnd then [unit] else unit :: throughEnd units

namespace Model

variable {α : Type} {model : Model α}

/-- The readings that a decision is judged by, each with its distance from the decision, which is
negative before it.  Before it stand the decisions that were made earlier, the last one first, in
whatever segment; behind it stand the units of its own segment.

* Each of the last `lookbehind` earlier decisions gives the source reading of its unit and its
  target.
* The decision gives its target.
* Its unit and the next `lookahead` ones give their source readings. -/
def around (model : Model α) (earlier : List Decision) (decision : Decision)
    (later : List LexicalUnit) : List (Reading × Int) :=
  let behind := (LexicalUnit.throughEnd (decision.1 :: later)).take (model.lookahead + 1)
  ((earlier.take model.lookbehind).zipIdx 1).flatMap (fun (before, distance) =>
      (before.1.source.toList ++ before.target.toList).map (·, -(distance : Int)))
    ++ decision.target.toList.map (·, 0)
    ++ (behind.zipIdx 0).flatMap (fun (unit, distance) =>
      unit.source.toList.map (·, (distance : Int)))

/-- The features that a decision is judged by: those of the readings around it, where these
stand. -/
def evidence (model : Model α) (earlier : List Decision) (decision : Decision)
    (later : List LexicalUnit) : List Location :=
  Ascending.ofList <| (model.around earlier decision later).flatMap fun (reading, position) =>
    reading.features.map (⟨position, ·⟩)

/-- The sum of the weights of a row of decisions, the last one first, between earlier decisions and
later units. -/
def gain [Zero α] [Add α] (model : Model α) :
    List Decision → List Decision → List LexicalUnit → α
  | [], _, _ => 0
  | decision :: run, earlier, later =>
    model.weights.score (model.evidence (run ++ earlier) decision later)
      + model.gain run earlier (decision.1 :: later)

/-! ## Rows of decisions -/

/-- Decisions in a row gain what the earlier ones gain with the later units ahead, and what the
later ones gain behind them. -/
lemma gain_append [AddMonoid α] (run run' earlier : List Decision) (later : List LexicalUnit) :
    model.gain (run ++ run') earlier later = model.gain run (run' ++ earlier) later
      + model.gain run' earlier ((run.map Prod.fst).reverse ++ later) := by
  induction run generalizing later with
  | nil => simp [gain]
  | cons decision run ih => simp [gain, ih, add_assoc]

/-! ## Units that are not known yet -/

/-- Enough units are known to judge a decision for the first of them: all that the model looks at,
or all of the segment. -/
def Settled (model : Model α) (units : List LexicalUnit) : Prop :=
  model.lookahead + 1 ≤ units.length ∨ ∃ unit ∈ units, unit.isEnd = true

lemma Settled.cons {units : List LexicalUnit} (h : model.Settled units) (unit : LexicalUnit) :
    model.Settled (unit :: units) := by
  rcases h with hlength | ⟨last, hlast, hend⟩
  · exact Or.inl (hlength.trans (by simp))
  · exact Or.inr ⟨last, List.mem_cons_of_mem _ hlast, hend⟩

lemma Settled.append_left {units : List LexicalUnit} (h : model.Settled units)
    (front : List LexicalUnit) : model.Settled (front ++ units) := by
  induction front with
  | nil => exact h
  | cons unit front ih => exact ih.cons unit

/-- Further units do not matter where enough were known. -/
lemma Settled.append_right {units : List LexicalUnit} (h : model.Settled units)
    (more : List LexicalUnit) : model.Settled (units ++ more) := by
  rcases h with hlength | ⟨last, hlast, hend⟩
  · exact Or.inl (hlength.trans (by simp))
  · exact Or.inr ⟨last, List.mem_append_left _ hlast, hend⟩

/-- If the last of some units could be judged, so can those before it. -/
lemma settled_drop {units ahead : List LexicalUnit}
    (h : ∀ unit ∈ units.head?, model.Settled (unit :: ahead)) (height : Nat) :
    ∀ unit ∈ (units.drop height).head?,
      model.Settled (unit :: ((units.take height).reverse ++ ahead)) := by
  intro unit hunit
  cases units with
  | nil => simp at hunit
  | cons last units =>
      cases height with
      | zero => simpa using h unit hunit
      | succ height =>
          have hlast := h last rfl
          rw [List.take_succ_cons, List.reverse_cons, List.append_assoc]
          exact (hlast.append_left _).cons unit

/-- Behind the end of a segment nothing is looked at. -/
lemma throughEnd_append_of_end {units : List LexicalUnit} (h : ∃ unit ∈ units, unit.isEnd = true)
    (more : List LexicalUnit) :
    LexicalUnit.throughEnd (units ++ more) = LexicalUnit.throughEnd units := by
  induction units with
  | nil => simp at h
  | cons unit units ih =>
      simp only [List.cons_append, LexicalUnit.throughEnd]
      split
      · rfl
      · rename_i hopen
        rw [ih (by simpa [hopen] using h)]

/-- The first units of a segment are known when there are as many units. -/
lemma take_throughEnd_append {units : List LexicalUnit} {count : Nat} (h : count ≤ units.length)
    (more : List LexicalUnit) :
    (LexicalUnit.throughEnd (units ++ more)).take count
      = (LexicalUnit.throughEnd units).take count := by
  induction units generalizing count with
  | nil => simp [Nat.le_zero.1 h]
  | cons unit units ih =>
      simp only [List.cons_append, LexicalUnit.throughEnd]
      split
      · rfl
      · cases count with
        | zero => simp
        | succ count =>
            rw [List.take_succ_cons, List.take_succ_cons, ih (Nat.le_of_succ_le_succ h)]

/-- The evidence for a decision is complete when enough units behind it are known. -/
lemma evidence_later {earlier : List Decision} {decision : Decision} {later : List LexicalUnit}
    (h : model.Settled (decision.1 :: later)) (more : List LexicalUnit) :
    model.evidence earlier decision (later ++ more) = model.evidence earlier decision later := by
  have hbehind : (LexicalUnit.throughEnd (decision.1 :: later ++ more)).take (model.lookahead + 1)
      = (LexicalUnit.throughEnd (decision.1 :: later)).take (model.lookahead + 1) := by
    rcases h with hlength | hend
    · exact take_throughEnd_append hlength more
    · rw [throughEnd_append_of_end hend]
  rw [List.cons_append] at hbehind
  rw [evidence, around, hbehind, evidence, around]

/-- **What is known late changes nothing**, when the last decision of a row could be judged before.
-/
lemma gain_later [Zero α] [Add α] {run : List Decision} {later : List LexicalUnit}
    (earlier : List Decision) (h : ∀ decision ∈ run.head?, model.Settled (decision.1 :: later))
    (more : List LexicalUnit) :
    model.gain run earlier (later ++ more) = model.gain run earlier later := by
  induction run generalizing later with
  | nil => rfl
  | cons decision run ih =>
      have hsettled : model.Settled (decision.1 :: later) := h decision (by simp)
      have hrest : ∀ before ∈ run.head?, model.Settled (before.1 :: decision.1 :: later) :=
        fun before _ => hsettled.cons before.1
      rw [gain, gain, evidence_later hsettled, ← List.cons_append, ih hrest]

end Model

end LexicalSelection
