import LexicalSelection.Proofs.Model.Legible
import LexicalSelection.Proofs.Model.Stored
import Mathlib.Algebra.BigOperators.Group.Finset.Basic
import Mathlib.Data.Finset.Sym

/-!
# What active locations score

Two locations have a weight in no order of their own: the one that was given last, be it for `a` and
`b` or for `b` and `a`.  A table finds it in one place, and walks over its rows to add up the
weights of some active locations.  Here the same sum is said without tables.

* `Pair.unordered` — the two locations of a pair, without their order.
* `distinctPairs` — the choices of two different locations among some.
* `WeightTable.Weighs` — what a table finds for two locations, whatever their order.
* `Model.givenWeights` — the weights that the lines of a rule file give.
* **`score_eq_sum`** — a score is the sum over all choices of two different active locations.
* `weighs_foldl_applyLine`, `weighs_setAll` — the first weight that lines give counts, and the last
  that is set.
* **`score_eq_sum_stored`** — what is scored after rules have been read and weights have been set.
-/

namespace LexicalSelection

/-! ## Two locations in no order -/

namespace Pair

/-- The two locations of a pair, without their order. -/
def unordered (pair : Pair) : Sym2 Location := s(pair.first, pair.second)

@[simp] lemma unordered_of (a b : Location) : (of a b).unordered = s(a, b) := by
  rw [of]
  split
  · exact Sym2.eq_swap
  · rfl

/-- A pair is known by its two locations, since the smaller one comes first. -/
lemma unordered_inj {pair pair' : Pair} (h : pair.unordered = pair'.unordered) : pair = pair' := by
  rw [← of_first_second pair, ← of_first_second pair', of_eq_of_iff]
  simpa [unordered] using h

/-- The pair of two locations that are given in no order. -/
lemma exists_unordered_eq (p : Sym2 Location) : ∃ pair : Pair, pair.unordered = p := by
  induction p using Sym2.inductionOn with
  | hf a b => exact ⟨of a b, unordered_of a b⟩

end Pair

/-- All choices of two different locations among some. -/
def distinctPairs (locs : List Location) : Finset (Sym2 Location) :=
  locs.toFinset.sym2.filter fun p => ¬ p.IsDiag

/-- The pairs of a list are those of two different locations in it. -/
lemma mem_distinctPairs {locs : List Location} {pair : Pair} :
    pair.unordered ∈ distinctPairs locs ↔
      pair.first ≠ pair.second ∧ pair.first ∈ locs ∧ pair.second ∈ locs := by
  rw [distinctPairs, Finset.mem_filter, Pair.unordered, Finset.mk_mem_sym2_iff, Sym2.mk_isDiag_iff,
    List.mem_toFinset, List.mem_toFinset]
  tauto

namespace WeightTable

variable {α β : Type}

/-- A table stays in order when only its weights change. -/
lemma ordered_mapWeights {table : WeightTable α} (h : table.Ordered) (f : α → β) :
    (table.mapWeights f).Ordered where
  rows := List.pairwise_map.2 h.rows
  entries first row hrow := by
    obtain ⟨⟨_, old⟩, hold, heq⟩ := List.mem_map.1 hrow
    obtain ⟨rfl, rfl⟩ := Prod.mk.inj heq
    exact List.pairwise_map.2 (h.entries _ old hold)

/-- The weight that two locations have in a table, if any, whatever their order. -/
def Weighs (table : WeightTable α) (weight? : Sym2 Location → Option α) : Prop :=
  ∀ pair : Pair, table.find? pair.first pair.second = weight? pair.unordered

/-- It only matters what is found for each pair. -/
lemma Weighs.congr {table : WeightTable α} {weight? weight?' : Sym2 Location → Option α}
    (h : table.Weighs weight?) (heq : ∀ p, weight? p = weight?' p) : table.Weighs weight?' :=
  fun pair => (h pair).trans (heq pair.unordered)

/-- Among active locations those pairs are scored that have a weight. -/
lemma mem_scored_iff {table : WeightTable α} {weight? : Sym2 Location → Option α}
    (h : table.Weighs weight?) (locs : List Location) (pair : Pair) (weight : α) :
    (pair, weight) ∈ table.scored (Ascending.ofList locs) ↔
      pair.unordered ∈ distinctPairs locs ∧ weight? pair.unordered = some weight := by
  rw [mem_scored (Ascending.strict_ofList locs), mem_distinctPairs, Ascending.mem_ofList,
    Ascending.mem_ofList, h pair]
  tauto

/-- **A score is the sum over all choices of two different active locations.**  The weights that are
added are told apart by their locations, and a choice without a weight adds nothing. -/
lemma score_eq_sum [AddCommMonoid α] {table : WeightTable α} {weight? : Sym2 Location → Option α}
    (h : table.Weighs weight?) (locs : List Location) :
    table.score (Ascending.ofList locs) = ∑ p ∈ distinctPairs locs, (weight? p).getD 0 := by
  classical
  have hkeys : ((table.scored (Ascending.ofList locs)).map Prod.fst).Nodup :=
    Ascending.Strict.nodup (List.pairwise_map.2 (strictKeys_scored (Ascending.strict_ofList locs)))
  rw [score_eq_sum_scored, ← List.sum_toFinset Prod.snd hkeys.of_map]
  refine Finset.sum_of_injOn (fun entry => entry.1.unordered) ?_ ?_ ?_ ?_
  · rintro ⟨pair, weight⟩ hentry ⟨pair', weight'⟩ hentry' heq
    have hweight := ((mem_scored_iff h locs pair weight).1 (List.mem_toFinset.1 hentry)).2
    have hweight' := ((mem_scored_iff h locs pair' weight').1 (List.mem_toFinset.1 hentry')).2
    obtain rfl := Pair.unordered_inj heq
    rw [Option.some.inj (hweight.symm.trans hweight')]
  · rintro ⟨pair, weight⟩ hentry
    exact ((mem_scored_iff h locs pair weight).1 (List.mem_toFinset.1 hentry)).1
  · intro p hp hnot
    obtain ⟨pair, rfl⟩ := Pair.exists_unordered_eq p
    cases hweight : weight? pair.unordered with
    | none => rfl
    | some weight =>
        have hentry := (mem_scored_iff h locs pair weight).2 ⟨hp, hweight⟩
        exact absurd ⟨(pair, weight), List.mem_toFinset.2 hentry, rfl⟩ hnot
  · rintro ⟨pair, weight⟩ hentry
    rw [((mem_scored_iff h locs pair weight).1 (List.mem_toFinset.1 hentry)).2]
    rfl

/-- Altering an entry alters what its pair weighs, in whichever order it is given. -/
lemma Weighs.alter {table : WeightTable α} {weight? : Sym2 Location → Option α}
    (h : table.Weighs weight?) (hordered : table.Ordered) (a b : Location) (f : Option α → α) :
    (table.alter (Pair.of a b) f).Weighs fun p =>
      if p = s(a, b) then some (f (weight? p)) else weight? p := by
  intro pair
  have hpair : pair = Pair.of a b ↔ pair.unordered = s(a, b) := by
    rw [← Pair.unordered_of]
    exact ⟨congrArg Pair.unordered, Pair.unordered_inj⟩
  rw [find?_alter_pair hordered, h pair]
  simp only [hpair]

/-- What is done to the weights is done to what the pairs weigh. -/
lemma Weighs.mapWeights {table : WeightTable α} {weight? : Sym2 Location → Option α}
    (h : table.Weighs weight?) (f : α → β) :
    (table.mapWeights f).Weighs fun p => (weight? p).map f := by
  intro pair
  rw [find?_mapWeights, h pair]

end WeightTable

namespace Model

/-! ## Weights from lines -/

/-- The other location of a rule for a weight: the universal one, if the rule names none. -/
def resolvePartner (model : Model Binary64) : Option NamedLocation → Except RuleError Location
  | none => .ok .universal
  | some loc => model.resolve loc

/-- The two locations of a line for a weight, and the weight, if the line is accepted. -/
def weightGiven? (model : Model Binary64) (line : Text) :
    Option (Location × Location × Binary64) :=
  match Rule.ofLine line with
  | .ok (some (.weight first second weight)) =>
    match model.resolve first, model.resolvePartner second with
    | .ok a, .ok b => some (a, b, weight)
    | _, _ => none
  | _ => none

/-- The weights that lines give, in the order of the lines.  Whether a line is accepted depends on
the lines before it. -/
def givenWeights : Model Binary64 → List Text → List (Location × Location × Binary64)
  | _, [] => []
  | model, line :: rest =>
    (model.weightGiven? line).toList ++ givenWeights (model.applyLine line) rest

/-- The first weight that is given for two locations, in either order. -/
def firstGiven? {α : Type} (p : Sym2 Location) (given : List (Location × Location × α)) :
    Option α :=
  (given.find? fun entry => s(entry.1, entry.2.1) = p).map fun entry => entry.2.2

/-- The last weight that is given for two locations, in either order. -/
def lastGiven? {α : Type} (p : Sym2 Location) (given : List (Location × Location × α)) : Option α :=
  firstGiven? p given.reverse

/-- The model with weights that are set one after the other. -/
def setAll {α : Type} (given : List (Location × Location × α)) (model : Model α) : Model α :=
  given.foldl (fun model (a, b, weight) => model.setWeight (Pair.of a b) weight) model

/-- The model with something done to each weight. -/
def mapWeights {α β : Type} (f : α → β) (model : Model α) : Model β :=
  { model with weights := model.weights.mapWeights f }

/-- What was given first stays. -/
lemma firstGiven?_append {α : Type} (p : Sym2 Location)
    (given more : List (Location × Location × α)) :
    firstGiven? p (given ++ more) = (firstGiven? p given).or (firstGiven? p more) := by
  rw [firstGiven?, List.find?_append, Option.map_or]
  rfl

lemma firstGiven?_singleton {α : Type} (p : Sym2 Location) (a b : Location) (weight : α) :
    firstGiven? p [(a, b, weight)] = if p = s(a, b) then some weight else none := by
  rw [firstGiven?, List.find?_singleton]
  by_cases h : s(a, b) = p
  · simp [h]
  · simp [h, Ne.symm h]

section Lines

variable {model : Model Binary64} {weight? : Sym2 Location → Option Binary64}

/-- A pair is resolved location by location. -/
lemma resolvePair_eq (model : Model Binary64) (first : NamedLocation)
    (second : Option NamedLocation) : model.resolvePair first second = do
      return Pair.of (← model.resolve first) (← model.resolvePartner second) := by
  cases second with
  | none => rfl
  | some second => rfl

/-- What a rule for a weight does: it gives the weight to its two locations, if both can be
resolved. -/
lemma weights_applyLine (model : Model Binary64) (line : Text) : (model.applyLine line).weights =
    match model.weightGiven? line with
    | some (a, b, weight) => model.weights.setNew (Pair.of a b) weight
    | none => model.weights := by
  rw [applyLine, weightGiven?]
  cases Rule.ofLine line with
  | error error => rfl
  | ok rule? =>
      cases rule? with
      | none => rfl
      | some rule =>
          cases rule with
          | beam size => rfl
          | lookbehind size => rfl
          | lookahead size => rfl
          | pattern name patterns => exact (settings_internFeature name model).2.2.2
          | weight first second weight =>
              simp only [apply, resolvePair_eq]
              cases model.resolve first with
              | error error => rfl
              | ok a => cases model.resolvePartner second <;> rfl

/-- The table stays in order when a line is applied. -/
lemma ordered_applyLine (hordered : model.weights.Ordered) (line : Text) :
    (model.applyLine line).weights.Ordered := by
  rw [weights_applyLine]
  split
  · exact WeightTable.ordered_alter hordered _ _
  · exact hordered

/-- The table stays in order when lines are applied. -/
lemma ordered_foldl_applyLine (hordered : model.weights.Ordered) (lines : List Text) :
    (lines.foldl applyLine model).weights.Ordered := by
  induction lines generalizing model with
  | nil => exact hordered
  | cons line rest ih => exact ih (ordered_applyLine hordered line)

/-- One line more gives a weight to two locations at most, and only if they have none. -/
lemma weighs_applyLine (h : model.weights.Weighs weight?) (hordered : model.weights.Ordered)
    (line : Text) : (model.applyLine line).weights.Weighs fun p =>
      (weight? p).or (firstGiven? p (model.weightGiven? line).toList) := by
  rw [weights_applyLine]
  cases model.weightGiven? line with
  | none => exact h.congr fun p => Option.or_none.symm
  | some given =>
      obtain ⟨a, b, weight⟩ := given
      refine (h.alter hordered a b _).congr fun p => ?_
      rw [Option.toList_some, firstGiven?_singleton]
      split
      · cases weight? p <;> rfl
      · exact Option.or_none.symm

/-- **The first weight that lines give counts**, unless there was one before. -/
lemma weighs_foldl_applyLine (h : model.weights.Weighs weight?) (hordered : model.weights.Ordered)
    (lines : List Text) : (lines.foldl applyLine model).weights.Weighs fun p =>
      (weight? p).or (firstGiven? p (model.givenWeights lines)) := by
  induction lines generalizing model weight? with
  | nil => exact h.congr fun p => Option.or_none.symm
  | cons line rest ih =>
      have hrest := ih (weighs_applyLine h hordered line) (ordered_applyLine hordered line)
      refine hrest.congr fun p => ?_
      rw [givenWeights, firstGiven?_append, Option.or_assoc]

end Lines

section Setting

variable {α : Type} {model : Model α} {weight? : Sym2 Location → Option α}

/-- **The last weight that is set counts.** -/
lemma weighs_setAll (h : model.weights.Weighs weight?) (hordered : model.weights.Ordered)
    (given : List (Location × Location × α)) :
    (model.setAll given).weights.Weighs fun p => (lastGiven? p given).or (weight? p) := by
  induction given generalizing model weight? with
  | nil => exact h
  | cons entry rest ih =>
      obtain ⟨a, b, weight⟩ := entry
      have hset : (model.setWeight (Pair.of a b) weight).weights.Weighs fun p =>
          if p = s(a, b) then some weight else weight? p := h.alter hordered a b fun _ => weight
      have hrest := ih hset (WeightTable.ordered_alter hordered _ _)
      refine hrest.congr fun p => ?_
      rw [lastGiven?, lastGiven?, List.reverse_cons, firstGiven?_append, firstGiven?_singleton,
        Option.or_assoc]
      split
      · rfl
      · rfl

end Setting

/-! ## Scores -/

/-- The weight of two locations, in either order, after weights have been set in the model of a rule
file: the one that was set last, or else the first one that a line gave. -/
def lastStored? {α : Type} (value : Binary64 → α) (text : Text)
    (given : List (Location × Location × α)) (p : Sym2 Location) : Option α :=
  (lastGiven? p given).or ((firstGiven? p (givenWeights {} text.lines)).map value)

/-- **What active locations score** in the model of a rule file in which weights have been set.  The
sums are those of any numbers that can be added in any order.  A score is the sum over all choices
of two different active locations, each with the weight that was set last for the two in either
order, or else with the first one that an accepted line of the file gave them; and 0 if there is
none.  The pairs that are scored are just those choices that have a weight, 0 too, and their weights
add up to the score. -/
theorem score_eq_sum_stored {α : Type} [AddCommMonoid α] (value : Binary64 → α) (text : Text)
    (given : List (Location × Location × α)) (locs : List Location) :
    let model := ((ofRules text).mapWeights value).setAll given
    let active := Ascending.ofList locs
    ofRuleBytes text.utf8 = .ok (ofRules text) ∧
    model.weights.score active
      = ∑ p ∈ distinctPairs locs, (lastStored? value text given p).getD 0 ∧
    ((model.weights.scored active).map Prod.snd).sum = model.weights.score active ∧
    Ascending.Strict ((model.weights.scored active).map Prod.fst) ∧
    ∀ pair weight, (pair, weight) ∈ model.weights.scored active ↔
      pair.unordered ∈ distinctPairs locs ∧
        lastStored? value text given pair.unordered = some weight := by
  intro model active
  have hempty : ({} : Model Binary64).weights.Weighs fun _ => none := fun _ => rfl
  have hordered : (text.lines.foldl applyLine {}).weights.Ordered :=
    ordered_foldl_applyLine WeightTable.ordered_empty text.lines
  have hlines := weighs_foldl_applyLine hempty WeightTable.ordered_empty text.lines
  have hmapped : ((ofRules text).mapWeights value).weights.Weighs fun p =>
      (firstGiven? p (givenWeights {} text.lines)).map value := hlines.mapWeights value
  have hweighs : model.weights.Weighs (lastStored? value text given) :=
    weighs_setAll hmapped (WeightTable.ordered_mapWeights hordered value) given
  refine ⟨by rw [ofRuleBytes, Utf8.decode?_utf8], WeightTable.score_eq_sum hweighs locs,
    (WeightTable.score_eq_sum_scored _ _).symm, ?_, WeightTable.mem_scored_iff hweighs locs⟩
  exact List.pairwise_map.2 (WeightTable.strictKeys_scored (Ascending.strict_ofList locs))

/-- A rule file gives a weight to one location twice, of which the first one counts, and a weight at
a position outside of the window, which is refused.  Then a weight is set for two locations in the
other order than the file has them in.  The weights are added as multisets, which shows which ones
they are. -/
theorem score_eq_sum_stored_of_lines :
    let text : Text := ("L 1\nP A sl/a\nP B tl/b\nW 0:B 2\nW 0:B 5\nW 1:B 6\n"
      ++ "W -1:A 0:B 3\nW -1:A 7\nW -1:B 0:A 8\n").toList
    let whole : Nat → Binary64 := fun n => .ofRatio false n 1
    let value : Binary64 → Multiset Binary64 := fun weight => {weight}
    let given : List (Location × Location × Multiset Binary64) := [(⟨0, 2⟩, ⟨-1, 1⟩, {whole 4})]
    let locs : List Location := [⟨1, 2⟩, ⟨0, 0⟩, ⟨0, 2⟩, ⟨-1, 1⟩]
    let model := ((ofRules text).mapWeights value).setAll given
    let scored := model.weights.scored (Ascending.ofList locs)
    ofRuleBytes text.utf8 = .ok (ofRules text) ∧
    ∑ p ∈ distinctPairs locs, (lastStored? value text given p).getD 0
      = {whole 2, whole 4, whole 7} ∧
    scored.map Prod.snd = [{whole 7}, {whole 4}, {whole 2}] ∧
    ∀ pair weight, (pair, weight) ∈ scored ↔ pair.unordered ∈ distinctPairs locs ∧
      lastStored? value text given pair.unordered = some weight := by
  intro text whole value given locs model scored
  obtain ⟨hread, hscore, -, -, hscored⟩ := score_eq_sum_stored value text given locs
  have hweights : model.weights.score (Ascending.ofList locs) = {whole 2, whole 4, whole 7} := by
    decide +kernel
  exact ⟨hread, hscore ▸ hweights, by decide +kernel, hscored⟩

end Model

end LexicalSelection
