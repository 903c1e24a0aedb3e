import LexicalSelection.Proofs.Training.Faultless
import LexicalSelection.Proofs.Training.Loading
import Mathlib.Algebra.Order.BigOperators.Ring.Finset
import Mathlib.Tactic.Linarith

/-!
# How many mistakes a pass can make

Some weights tell the right target of every unit from the others by a margin.  Then a pass that
starts with no weight but 0 makes few mistakes, in whatever order the units come: each mistake turns
the weights towards those by the margin at least, while it makes them longer by no more than the
number of pairs that it changes.

* `Instance.pairs` — the pairs with a weight that count for a target of an instance.
* **`exists_chosen`** — what a mistake is, and which pairs it changes.
* `Instance.Separated` — what it means that weights tell the right target by a margin.
* `Reweighted` — a pass changes weights only, and only those that are stored.
* `Learned` — what has been learned with each mistake; `learned_take` is the step of one instance.
* **`mistakes_le`** — the mistakes of a pass are bounded by the length of the weights that are to be
  learned, the number of pairs that a mistake can change, and the margin.
-/

open scoped symmDiff

namespace LexicalSelection

/-- The pairs that have a weight. -/
def WeightTable.stored {α : Type} (table : WeightTable α) : Finset Pair :=
  (table.entries.map Prod.fst).toFinset

namespace Perceptron

/-! ## Pairs that count -/

section Pairs

variable {α : Type}

/-- The features that count for the target with a number. -/
def Instance.active (model : Model α) (inst : Instance) (index : Nat) : List Location :=
  (inst.current.unit.targets.map
    (activeLocations model inst.before inst.current.unit inst.behind))[index]?.getD []

/-- The scores of all targets. -/
def Instance.scores [Zero α] [Add α] (model : Model α) (inst : Instance) : List α :=
  inst.current.unit.targets.map fun target =>
    model.weights.score (activeLocations model inst.before inst.current.unit inst.behind target)

/-- The pairs with a weight that count for the target with a number. -/
def Instance.pairs (model : Model α) (inst : Instance) (index : Nat) : Finset Pair :=
  ((model.weights.scored (inst.active model index)).map Prod.fst).toFinset

/-- The number of pairs in which the right target and another one differ. -/
def Instance.spread (model : Model α) (inst : Instance) (other : Nat) : Nat :=
  (inst.pairs model inst.current.gold ∆ inst.pairs model other).card

/-- The largest number of pairs in which the right target of a unit and another one differ. -/
def widestSpread (model : Model α) (corpus : Corpus) : Nat :=
  ((instancesOf corpus).flatMap fun inst =>
    (List.range inst.current.unit.targets.length).map (inst.spread model)).foldr max 0

/-- Some weights tell the right target of an instance from the others by a margin. -/
def Instance.Separated [AddCommMonoid α] [LE α] (model : Model α) (goal : Pair → α) (margin : α)
    (inst : Instance) : Prop :=
  ∀ other < inst.current.unit.targets.length, other ≠ inst.current.gold →
    ∑ pair ∈ inst.pairs model other, goal pair + margin
      ≤ ∑ pair ∈ inst.pairs model inst.current.gold, goal pair

instance Instance.decidableSeparated [AddCommMonoid α] [LE α] [DecidableLE α] (model : Model α)
    (goal : Pair → α) (margin : α) (inst : Instance) :
    Decidable (inst.Separated model goal margin) :=
  inferInstanceAs (Decidable (∀ other < inst.current.unit.targets.length, _ → _ ≤ _))

variable {model model' model'' : Model α} {inst : Instance} {index : Nat} {pair : Pair}

/-- Active locations are in strict order. -/
lemma strict_active : Ascending.Strict (inst.active model index) := by
  rw [Instance.active, List.getElem?_map]
  cases inst.current.unit.targets[index]? with
  | none => exact List.Pairwise.nil
  | some target => exact Ascending.strict_ofList _

/-- No pair is scored twice. -/
lemma nodup_scored : ((model.weights.scored (inst.active model index)).map Prod.fst).Nodup := by
  have hstrict : Ascending.Strict ((model.weights.scored (inst.active model index)).map Prod.fst) :=
    List.pairwise_map.2 (WeightTable.strictKeys_scored strict_active)
  exact hstrict.nodup

/-- The pairs of a target are those of two different active locations that have a weight. -/
lemma mem_pairs : pair ∈ inst.pairs model index ↔
    pair.first ≠ pair.second ∧ pair.first ∈ inst.active model index ∧
      pair.second ∈ inst.active model index ∧
      (model.weights.find? pair.first pair.second).isSome = true := by
  simp only [Instance.pairs, List.mem_toFinset, List.mem_map, Prod.exists, exists_and_right,
    exists_eq_right, WeightTable.mem_scored strict_active, Option.isSome_iff_exists]
  simp only [← exists_and_left]

/-- They are among the pairs that the model stores. -/
lemma pairs_subset_stored (h : model.weights.Ordered) :
    inst.pairs model index ⊆ model.weights.stored := by
  intro pair hpair
  obtain ⟨-, -, -, hstored⟩ := mem_pairs.1 hpair
  obtain ⟨weight, hweight⟩ := Option.isSome_iff_exists.1 hstored
  rw [WeightTable.stored, List.mem_toFinset]
  exact List.mem_map_of_mem ((WeightTable.mem_entries h pair weight).2
    ⟨pair.first, pair.second, Pair.of_first_second pair, hweight⟩)

/-- The pairs that tell two targets of a corpus apart are no more than the widest spread. -/
lemma spread_le_widestSpread {corpus : Corpus} (hinst : inst ∈ instancesOf corpus)
    (hindex : index < inst.current.unit.targets.length) :
    inst.spread model index ≤ widestSpread model corpus := by
  refine List.le_max_of_le (List.mem_flatMap.2 ⟨inst, hinst, ?_⟩) le_rfl
  exact List.mem_map_of_mem (List.mem_range.2 hindex)

/-! ## The same pairs with other weights -/

/-- The two models score the same pairs, if maybe with other weights. -/
structure Reweighted (model model' : Model α) : Prop where
  lookbehind : model'.lookbehind = model.lookbehind
  lookahead : model'.lookahead = model.lookahead
  ordered : model'.weights.Ordered
  stored : ∀ a b, (model'.weights.find? a b).isSome = (model.weights.find? a b).isSome

lemma Reweighted.refl (h : model.weights.Ordered) : Reweighted model model :=
  ⟨rfl, rfl, h, fun _ _ => rfl⟩

lemma Reweighted.trans (h : Reweighted model model') (h' : Reweighted model' model'') :
    Reweighted model model'' where
  lookbehind := h'.lookbehind.trans h.lookbehind
  lookahead := h'.lookahead.trans h.lookahead
  ordered := h'.ordered
  stored a b := (h'.stored a b).trans (h.stored a b)

/-- The same locations are active with other weights. -/
lemma Reweighted.active_eq (h : Reweighted model model') (inst : Instance) (index : Nat) :
    inst.active model' index = inst.active model index := by
  have hactive : activeLocations model' inst.before inst.current.unit inst.behind
      = activeLocations model inst.before inst.current.unit inst.behind := by
    funext target
    rw [activeLocations, activeLocations, context, context, h.lookbehind, h.lookahead]
  rw [Instance.active, Instance.active, hactive]

/-- The same pairs count with other weights. -/
lemma Reweighted.pairs_eq (h : Reweighted model model') (inst : Instance) (index : Nat) :
    inst.pairs model' index = inst.pairs model index := by
  ext pair
  rw [mem_pairs, mem_pairs, h.active_eq, h.stored]

/-- Setting the weight of a stored pair changes weights only. -/
lemma Reweighted.setWeight (h : Reweighted model model')
    (hstored : (model.weights.find? pair.first pair.second).isSome = true) (weight : α) :
    Reweighted model (model'.setWeight pair weight) where
  lookbehind := h.lookbehind
  lookahead := h.lookahead
  ordered := WeightTable.ordered_alter h.ordered _ _
  stored a b := by
    rw [Model.setWeight, WeightTable.set, WeightTable.find?_alter h.ordered]
    split
    · rename_i hpair
      rw [hpair.1, hpair.2, hstored]
      rfl
    · exact h.stored a b

variable [Field α]

/-- So does adding to the weights of stored pairs. -/
lemma Reweighted.foldl_addWeight (h : Reweighted model model') {changes : List (Pair × α)}
    (hstored : ∀ change ∈ changes,
      (model.weights.find? change.1.first change.1.second).isSome = true) :
    Reweighted model (changes.foldl Perceptron.addWeight model') := by
  induction changes generalizing model' with
  | nil => exact h
  | cons change changes ih =>
      obtain ⟨hchange, hchanges⟩ := List.forall_mem_cons.1 hstored
      exact ih (h.setWeight hchange _) hchanges

end Pairs

/-! ## What a mistake changes -/

section Mistake

variable {α : Type} [Field α] {model model' : Model α} {inst : Instance} {pair : Pair}
  {right chosen : List Pair}

/-- By how much the weight of a pair is changed when another target is chosen than the right one. -/
def Instance.turn (model : Model α) (inst : Instance) (chosen : Nat) (pair : Pair) : α :=
  (if pair ∈ inst.pairs model inst.current.gold then 1 else 0)
    - if pair ∈ inst.pairs model chosen then 1 else 0

/-- Along other weights a turn comes to the difference of two sums. -/
lemma sum_mul_turn (h : model.weights.Ordered) (inst : Instance) (chosen : Nat) (f : Pair → α) :
    ∑ pair ∈ model.weights.stored, f pair * inst.turn model chosen pair
      = ∑ pair ∈ inst.pairs model inst.current.gold, f pair
        - ∑ pair ∈ inst.pairs model chosen, f pair := by
  simp only [Instance.turn, mul_sub, Finset.sum_sub_distrib, mul_ite, mul_one, mul_zero,
    Finset.sum_ite_mem, Finset.inter_eq_right.2 (pairs_subset_stored h)]

/-- A turn is as long as there are pairs in which the two targets differ. -/
lemma sum_turn_sq (h : model.weights.Ordered) (inst : Instance) (chosen : Nat) :
    ∑ pair ∈ model.weights.stored, inst.turn model chosen pair ^ 2 = inst.spread model chosen := by
  have hsquare : ∀ pair, inst.turn model chosen pair ^ 2
      = if pair ∈ inst.pairs model inst.current.gold ∆ inst.pairs model chosen then 1 else 0 := by
    intro pair
    simp only [Instance.turn, Finset.mem_symmDiff]
    by_cases hright : pair ∈ inst.pairs model inst.current.gold <;>
      by_cases hchosen : pair ∈ inst.pairs model chosen <;> simp [hright, hchosen]
  have hsubset : inst.pairs model inst.current.gold ∆ inst.pairs model chosen
      ⊆ model.weights.stored :=
    symmDiff_le_sup.trans (Finset.union_subset (pairs_subset_stored h) (pairs_subset_stored h))
  rw [Finset.sum_congr rfl fun pair _ => hsquare pair, Finset.sum_ite_mem,
    Finset.inter_eq_right.2 hsubset, Finset.sum_const, nsmul_one, Instance.spread]

/-- A weight changes by the sum of what is added to it. -/
lemma get_foldl_addWeight (h : model.weights.Ordered) (changes : List (Pair × α)) (pair : Pair) :
    (changes.foldl addWeight model).weights.get pair = model.weights.get pair
      + (changes.map fun change => if change.1 = pair then change.2 else 0).sum := by
  induction changes generalizing model with
  | nil => simp
  | cons change changes ih =>
      rw [List.foldl_cons, ih (WeightTable.ordered_alter h _ _), addWeight, Model.setWeight,
        WeightTable.get_set h, List.map_cons, List.sum_cons]
      by_cases hpair : change.1 = pair
      · rw [if_pos hpair.symm, if_pos hpair, hpair, add_assoc]
      · rw [if_neg (Ne.symm hpair), if_neg hpair, zero_add]

/-- Of different pairs only one can be the given one. -/
lemma sum_ite_eq_of_nodup {pairs : List Pair} (h : pairs.Nodup) (pair : Pair) (amount : α) :
    (pairs.map fun other => if other = pair then amount else 0).sum
      = if pair ∈ pairs then amount else 0 := by
  rw [← List.sum_toFinset _ h, Finset.sum_ite_eq']
  simp only [List.mem_toFinset]

/-- What the updates of two rows of pairs add to the weight of a pair. -/
lemma sum_updates (hright : right.Nodup) (hchosen : chosen.Nodup) (pair : Pair) :
    ((updates right chosen).map fun change => if change.1 = pair then change.2 else (0 : α)).sum
      = (if pair ∈ right then 1 else 0) - if pair ∈ chosen then 1 else 0 := by
  rw [updates, List.map_append, List.sum_append, List.map_map, List.map_map]
  simp only [Function.comp_def]
  rw [sum_ite_eq_of_nodup (hright.filter _), sum_ite_eq_of_nodup (hchosen.filter _)]
  by_cases hmem : pair ∈ right <;> by_cases hmem' : pair ∈ chosen <;> simp [hmem, hmem']

/-- A target scores the sum of the weights of its pairs. -/
lemma score_eq_sum (model : Model α) (inst : Instance) (index : Nat) :
    model.weights.score (inst.active model index)
      = ∑ pair ∈ inst.pairs model index, model.weights.get pair := by
  have hweights : (model.weights.scored (inst.active model index)).map Prod.snd
      = ((model.weights.scored (inst.active model index)).map Prod.fst).map model.weights.get := by
    rw [List.map_map]
    refine List.map_congr_left fun ⟨pair, weight⟩ hmem => ?_
    obtain ⟨-, -, -, hweight⟩ := (WeightTable.mem_scored strict_active pair weight).1 hmem
    simp [WeightTable.get, hweight]
  rw [Instance.pairs, List.sum_toFinset _ nodup_scored, ← hweights,
    WeightTable.score_eq_sum_scored]

/-- The pairs that a mistake changes, with their amounts. -/
def Instance.updates (model : Model α) (inst : Instance) (chosen : Nat) : List (Pair × α) :=
  Perceptron.updates
    ((model.weights.scored (inst.active model inst.current.gold)).map Prod.fst)
    ((model.weights.scored (inst.active model chosen)).map Prod.fst)

/-- They are the pairs in which the two targets differ. -/
lemma mem_updates {chosen : Nat} {amount : α} : (pair, amount) ∈ inst.updates model chosen ↔
    amount = 1 ∧ pair ∈ inst.pairs model inst.current.gold ∧ pair ∉ inst.pairs model chosen ∨
      amount = -1 ∧ pair ∈ inst.pairs model chosen ∧
        pair ∉ inst.pairs model inst.current.gold := by
  simp only [Instance.updates, Perceptron.updates, Instance.pairs, List.mem_toFinset,
    List.mem_append, List.mem_map, List.mem_filter, Prod.mk.injEq, decide_eq_true_eq]
  constructor
  · rintro (⟨pair, hpair, rfl, rfl⟩ | ⟨pair, hpair, rfl, rfl⟩)
    · exact Or.inl ⟨rfl, hpair⟩
    · exact Or.inr ⟨rfl, hpair⟩
  · rintro (⟨rfl, hpair⟩ | ⟨rfl, hpair⟩)
    · exact Or.inl ⟨pair, hpair, rfl, rfl⟩
    · exact Or.inr ⟨pair, hpair, rfl, rfl⟩

/-- Only stored pairs are updated. -/
lemma stored_of_mem_updates {chosen : Nat} {change : Pair × α}
    (h : change ∈ inst.updates model chosen) :
    (model.weights.find? change.1.first change.1.second).isSome = true := by
  rcases mem_updates.1 h with ⟨-, hpair, -⟩ | ⟨-, hpair, -⟩
  · exact (mem_pairs.1 hpair).2.2.2
  · exact (mem_pairs.1 hpair).2.2.2

/-- Updating after a mistake changes weights only. -/
lemma reweighted_updates (h : model.weights.Ordered) (inst : Instance) (chosen : Nat) :
    Reweighted model ((inst.updates model chosen).foldl addWeight model) :=
  (Reweighted.refl h).foldl_addWeight fun _ => stored_of_mem_updates

/-- The updates of a mistake turn the weights. -/
lemma get_foldl_updates (h : model.weights.Ordered) (inst : Instance) (chosen : Nat) (pair : Pair) :
    ((inst.updates model chosen).foldl addWeight model).weights.get pair
      = model.weights.get pair + inst.turn model chosen pair := by
  rw [get_foldl_addWeight h, Instance.updates, sum_updates nodup_scored nodup_scored]
  simp only [Instance.turn, Instance.pairs, List.mem_toFinset]

/-- The score of a target is that of its active locations. -/
lemma getElem?_scores {index : Nat} (h : index < inst.current.unit.targets.length) :
    (inst.scores model)[index]? = some (model.weights.score (inst.active model index)) := by
  simp [Instance.scores, Instance.active, h]

variable [LinearOrder α]

/-- The target that scores best decides what is changed. -/
lemma instanceUpdates_eq (model : Model α) (inst : Instance) :
    instanceUpdates model inst.before inst.current inst.behind
      = if indexOfMax (inst.scores model) = inst.current.gold then none
        else some (inst.updates model (indexOfMax (inst.scores model))) := by
  have hscores : (inst.current.unit.targets.map (activeLocations model inst.before
      inst.current.unit inst.behind)).map model.weights.score = inst.scores model := by
    rw [List.map_map]
    rfl
  rw [instanceUpdates, hscores]
  rfl

/-- The chosen target is the first of those that score best. -/
lemma isFirstMax_scores (model : Model α) (h : inst.current.unit.targets ≠ []) :
    ∃ best, IsFirstMax (inst.scores model) (indexOfMax (inst.scores model)) best :=
  isFirstMax_indexOfMax (by simpa [Instance.scores] using h)

/-- **What a mistake is.**  Another target than the right one is the first of those that score best,
and the pairs in which the two differ are changed. -/
lemma exists_chosen {changes : List (Pair × α)}
    (h : instanceUpdates model inst.before inst.current inst.behind = some changes)
    (hne : inst.current.unit.targets ≠ []) :
    ∃ chosen best, IsFirstMax (inst.scores model) chosen best ∧ chosen ≠ inst.current.gold ∧
      changes = inst.updates model chosen := by
  rw [instanceUpdates_eq] at h
  split at h
  · cases h
  · rename_i hwrong
    obtain ⟨best, hbest⟩ := isFirstMax_scores model hne
    exact ⟨_, best, hbest, hwrong, (Option.some.inj h).symm⟩

/-- An instance changes weights only. -/
lemma reweighted_correct (h : model.weights.Ordered) (inst : Instance) :
    Reweighted model (correct model inst) := by
  rw [correct, Instance.changes, instanceUpdates_eq]
  split
  · exact .refl h
  · exact reweighted_updates h inst _

/-- **A mistake turns the weights**, and no pair gets a weight that had none. -/
lemma exists_turn (h : model.weights.Ordered) (hwrong : ¬inst.Right model)
    (hgold : inst.current.gold < inst.current.unit.targets.length) :
    ∃ chosen < inst.current.unit.targets.length, chosen ≠ inst.current.gold ∧
      ∑ pair ∈ inst.pairs model inst.current.gold, model.weights.get pair
        ≤ ∑ pair ∈ inst.pairs model chosen, model.weights.get pair ∧
      Reweighted model (correct model inst) ∧
      ∀ pair, (correct model inst).weights.get pair
        = model.weights.get pair + inst.turn model chosen pair := by
  obtain ⟨changes, hupdates⟩ := Option.ne_none_iff_exists'.1 hwrong
  obtain ⟨chosen, best, hbest, hne, rfl⟩ :=
    exists_chosen hupdates (List.length_pos_iff.1 hgold.pos)
  have hchosen : chosen < inst.current.unit.targets.length := by
    simpa [Instance.scores] using hbest.lt_length
  have hchanges : inst.changes model = inst.updates model chosen := by
    rw [Instance.changes, hupdates, Option.getD_some]
  refine ⟨chosen, hchosen, hne, ?_, reweighted_correct h inst, fun pair => ?_⟩
  · rw [← score_eq_sum, ← score_eq_sum]
    have hsame := Option.some.inj ((getElem?_scores hchosen).symm.trans hbest.here)
    rw [hsame]
    exact hbest.le _ (List.mem_of_getElem? (getElem?_scores hgold))
  · rw [correct, hchanges, get_foldl_updates h]

end Mistake

/-! ## What a pass learns -/

section Learning

variable {α : Type} [Field α] [LinearOrder α] {model : Model α} {goal : Pair → α} {margin : α}
  {width : Nat} {pass : Pass α} {inst : Instance} {instances : List Instance} {corpus : Corpus}

/-- What has been learned on the way: with each mistake the weights have come closer to the goal by
the margin at least, and their square has grown by the width at most. -/
structure Learned (model : Model α) (goal : Pair → α) (margin : α) (width : Nat) (pass : Pass α) :
    Prop where
  sound : pass.Sound
  reweighted : Reweighted model pass.model
  along : pass.mistakes * margin
    ≤ ∑ pair ∈ model.weights.stored, goal pair * pass.model.weights.get pair
  square : ∑ pair ∈ model.weights.stored, pass.model.weights.get pair ^ 2 ≤ pass.mistakes * width

/-- An instance that can be learned: it has a right target, some weights tell it from the others by
a margin, and it differs from each of them in a number of pairs that is no larger than the width. -/
structure Instance.Learnable (model : Model α) (goal : Pair → α) (margin : α) (width : Nat)
    (inst : Instance) : Prop where
  ambiguous : inst.current.unit.ambiguous = true
  gold_lt : inst.current.gold < inst.current.unit.targets.length
  separated : inst.Separated model goal margin
  spread_le : ∀ other < inst.current.unit.targets.length, inst.spread model other ≤ width

/-- Without any weight but 0 there is nothing to begin with. -/
lemma learned_start (hordered : model.weights.Ordered)
    (hzero : ∀ entry ∈ model.weights.entries, entry.2 = 0) :
    Learned model goal margin width (start model) := by
  have hget : ∀ pair, model.weights.get pair = 0 := by
    intro pair
    rw [WeightTable.get]
    cases hweight : model.weights.find? pair.first pair.second with
    | none => rfl
    | some weight =>
        exact hzero (pair, weight) ((WeightTable.mem_entries hordered pair weight).2
          ⟨pair.first, pair.second, Pair.of_first_second pair, hweight⟩)
  refine ⟨(start_spec hordered).1, .refl hordered, ?_, ?_⟩ <;> simp [start, hget]

variable [IsStrictOrderedRing α]

/-- **What one instance teaches.**  A mistake turns the weights towards the goal by the margin,
since the goal tells the right target from the chosen one.  It makes them no longer than by the
pairs that it changes, since the right target scored no better. -/
lemma learned_take (hordered : model.weights.Ordered) (h : Learned model goal margin width pass)
    (hinst : inst.Learnable model goal margin width) :
    Learned model goal margin width (pass.take inst) := by
  obtain ⟨hsound, -, hmodel, -⟩ := take_spec h.sound hinst.ambiguous
  by_cases hright : inst.Right pass.model
  · rw [take_of_right hright hinst.ambiguous] at hsound ⊢
    exact ⟨hsound, h.reweighted, h.along, h.square⟩
  · obtain ⟨chosen, hchosen, hne, hscore, hreweighted, hget⟩ :=
      exists_turn h.reweighted.ordered hright hinst.gold_lt
    have hturn : ∀ pair, (pass.take inst).model.weights.get pair
        = pass.model.weights.get pair + inst.turn model chosen pair := by
      intro pair
      rw [hmodel, hget, Instance.turn, Instance.turn, h.reweighted.pairs_eq, h.reweighted.pairs_eq]
    rw [h.reweighted.pairs_eq, h.reweighted.pairs_eq] at hscore
    have hmistakes : ((pass.take inst).mistakes : α) = pass.mistakes + 1 := by
      rw [mistakes_take_of_not_right hright hinst.ambiguous, Nat.cast_succ]
    refine ⟨hsound, hmodel ▸ h.reweighted.trans hreweighted, ?_, ?_⟩
    · have hcloser := hinst.separated chosen hchosen hne
      have halong := h.along
      simp only [hturn, mul_add, Finset.sum_add_distrib, sum_mul_turn hordered]
      rw [hmistakes, add_one_mul]
      linarith
    · have hspread : (inst.spread model chosen : α) ≤ width :=
        Nat.cast_le.2 (hinst.spread_le chosen hchosen)
      have hsquare := h.square
      simp only [hturn, add_sq, Finset.sum_add_distrib, mul_assoc, ← Finset.mul_sum,
        sum_mul_turn hordered, sum_turn_sq hordered]
      rw [hmistakes, add_one_mul]
      linarith

/-- What a whole pass teaches. -/
lemma learned_foldl_take (hordered : model.weights.Ordered)
    (h : Learned model goal margin width pass)
    (hinstances : ∀ inst ∈ instances, inst.Learnable model goal margin width) :
    Learned model goal margin width (instances.foldl Pass.take pass) := by
  induction instances generalizing pass with
  | nil => exact h
  | cons inst instances ih =>
      obtain ⟨hinst, hrest⟩ := List.forall_mem_cons.1 hinstances
      exact ih (learned_take hordered h hinst) hrest

/-- Few mistakes can have been made until then, since weights that are short do not reach far
towards the goal. -/
lemma mistakes_le_of_learned (h : Learned model goal margin width pass) (hmargin : 0 < margin) :
    (pass.mistakes : α) ≤ (∑ pair ∈ model.weights.stored, goal pair ^ 2) * width / margin ^ 2 := by
  have hgoal : 0 ≤ ∑ pair ∈ model.weights.stored, goal pair ^ 2 :=
    Finset.sum_nonneg fun pair _ => sq_nonneg (goal pair)
  rw [le_div_iff₀ (pow_pos hmargin 2)]
  rcases Nat.eq_zero_or_pos pass.mistakes with hnone | hsome
  · rw [hnone, Nat.cast_zero, zero_mul]
    exact mul_nonneg hgoal (Nat.cast_nonneg width)
  · have hpositive : (0 : α) < pass.mistakes := Nat.cast_pos.2 hsome
    refine le_of_mul_le_mul_left ?_ hpositive
    calc (pass.mistakes : α) * (pass.mistakes * margin ^ 2)
        = (pass.mistakes * margin) ^ 2 := by ring
      _ ≤ (∑ pair ∈ model.weights.stored, goal pair * pass.model.weights.get pair) ^ 2 :=
          pow_le_pow_left₀ (mul_nonneg hpositive.le hmargin.le) h.along 2
      _ ≤ (∑ pair ∈ model.weights.stored, goal pair ^ 2)
            * ∑ pair ∈ model.weights.stored, pass.model.weights.get pair ^ 2 :=
          Finset.sum_mul_sq_le_sq_mul_sq _ _ _
      _ ≤ (∑ pair ∈ model.weights.stored, goal pair ^ 2) * (pass.mistakes * width) :=
          mul_le_mul_of_nonneg_left h.square hgoal
      _ = pass.mistakes * ((∑ pair ∈ model.weights.stored, goal pair ^ 2) * width) := by ring

/-- **How many mistakes a pass can make.**  No pair has a weight but 0 yet, and for each unit of a
corpus that has been loaded some weights would tell the right target from the others by a margin.
Then the mistakes of the pass are at most the square of those weights, times the largest number of
pairs in which the right target of a unit and another one differ, over the square of the margin. -/
theorem mistakes_le {β : Type} {loader : Model β} {raw gold : Bytes}
    (hload : Corpus.load loader raw gold = .ok corpus) (hordered : model.weights.Ordered)
    (hzero : ∀ entry ∈ model.weights.entries, entry.2 = 0) (hmargin : 0 < margin)
    (hseparated : ∀ inst ∈ instancesOf corpus, inst.Separated model goal margin) :
    ((iterate corpus model).1.mistakes : α)
      ≤ (∑ pair ∈ model.weights.stored, goal pair ^ 2) * widestSpread model corpus
        / margin ^ 2 := by
  obtain ⟨-, -, -, -, hgold⟩ := Corpus.segment_of_load hload
  have hlearnable : ∀ inst ∈ instancesOf corpus,
      inst.Learnable model goal margin (widestSpread model corpus) := by
    intro inst hinst
    obtain ⟨sentence, hsentence, hmem⟩ := List.mem_flatMap.1 hinst
    obtain ⟨hambiguous, front, -, rfl⟩ := mem_sentenceInstances.1 hmem
    have hcurrent : inst.current ∈ corpus.flatten :=
      List.mem_flatten.2 ⟨_, hsentence, List.mem_append_right _ List.mem_cons_self⟩
    exact ⟨hambiguous, hgold _ hcurrent, hseparated inst hinst, fun other hother =>
      spread_le_widestSpread hinst hother⟩
  rw [iterate_eq]
  exact mistakes_le_of_learned
    (learned_foldl_take hordered (learned_start hordered hzero) hlearnable) hmargin

/-- The bound is reached: weights of square 2 tell `b` from `a` by a margin of 2, in two pairs, and
the first of two units is a mistake. -/
theorem mistakes_le_two_units :
    let model : Model ℚ := twoForms.setWeight (.unary ⟨0, 2⟩) 0
    let unit : Text → LexicalUnit := fun blank => ⟨blank, some ⟨[.plain 'x'], [0]⟩,
      [⟨[.plain 'a'], [0, 1]⟩, ⟨[.plain 'b'], [0, 2]⟩]⟩
    let corpus : Corpus := [[⟨unit [], 1⟩, ⟨unit [' '], 1⟩]]
    let goal : Pair → ℚ := fun pair => if pair = .unary ⟨0, 1⟩ then -1 else 1
    Corpus.load model (Text.utf8 "^x/a/b$ ^x/a/b$".toList) (Text.utf8 "^x/b$ ^x/b$".toList)
        = .ok corpus ∧
      (∀ inst ∈ instancesOf corpus, inst.Separated model goal 2) ∧
      (iterate corpus model).1.mistakes = 1 ∧
      ((iterate corpus model).1.mistakes : ℚ) ≤ 2 * 2 / 2 ^ 2 := by
  intro model unit corpus goal
  have hload : Corpus.load model (Text.utf8 "^x/a/b$ ^x/a/b$".toList)
      (Text.utf8 "^x/b$ ^x/b$".toList) = .ok corpus := by decide +kernel
  have hordered : model.weights.Ordered :=
    WeightTable.ordered_alter (WeightTable.ordered_alter
      (WeightTable.ordered_alter WeightTable.ordered_empty _ _) _ _) _ _
  have hseparated : ∀ inst ∈ instancesOf corpus, inst.Separated model goal 2 := by decide +kernel
  have hbound := mistakes_le hload hordered (by decide +kernel) two_pos hseparated
  have hsquare : ∑ pair ∈ model.weights.stored, goal pair ^ 2 = 2 := by decide +kernel
  have hwidest : widestSpread model corpus = 2 := by decide +kernel
  rw [hsquare, hwidest] at hbound
  exact ⟨hload, hseparated, by decide +kernel, hbound⟩

end Learning

end Perceptron

end LexicalSelection
