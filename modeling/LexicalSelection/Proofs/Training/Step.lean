import LexicalSelection.Proofs.Training.AnyOrder

/-!
# What a step of training does

An instance is left alone just when its right target is the first of those that score best.
Otherwise the weights of the pairs in which the right and the chosen target differ move by 1, each
of them the way that helps the right one, and nothing else in the model moves.

* `Instance.Corrected` — what the changes of a mistake do to a model.
* `Instance.Step` — what an instance does to a model, right or wrong.
* **`step_take`** — it does so in a pass.
* `weights_find?_foldl_correct`, `weights_find?_finish` — the rest of the table in a pass.
* **`training_step`** — the steps of each pass of a training, the pairs that its model stores, and
  the order in which things are done, which does not matter.
-/

namespace LexicalSelection.Perceptron

variable {α : Type} [Field α] {model model' : Model α} {pass : Pass α} {inst : Instance}
  {instances : List Instance} {pair : Pair} {a b : Location} {chosen : Nat}

/-! ## The pairs that are left alone -/

omit [Field α] in
/-- Setting a weight leaves all others as they were found. -/
lemma weights_find?_setWeight (h : model.weights.Ordered) (hne : (pair.first, pair.second) ≠ (a, b))
    (weight : α) : (model.setWeight pair weight).weights.find? a b = model.weights.find? a b := by
  rw [Model.setWeight, WeightTable.set, WeightTable.find?_alter h, if_neg]
  rintro ⟨rfl, rfl⟩
  exact hne rfl

/-- Adding to some weights leaves all others as they were found. -/
lemma weights_find?_foldl_addWeight (h : model.weights.Ordered) {changes : List (Pair × α)}
    (hne : ∀ change ∈ changes, (change.1.first, change.1.second) ≠ (a, b)) :
    (changes.foldl addWeight model).weights.find? a b = model.weights.find? a b := by
  induction changes generalizing model with
  | nil => rfl
  | cons change changes ih =>
      obtain ⟨hchange, hchanges⟩ := List.forall_mem_cons.1 hne
      rw [List.foldl_cons, ih (WeightTable.ordered_alter h _ _) hchanges, addWeight,
        weights_find?_setWeight h hchange]

/-- Adding to weights changes nothing but weights. -/
lemma foldl_addWeight_eq (model : Model α) (changes : List (Pair × α)) :
    changes.foldl addWeight model
      = { model with weights := (changes.foldl addWeight model).weights } := by
  induction changes generalizing model with
  | nil => rfl
  | cons change changes ih => exact ih (addWeight model change)

/-! ## Mistakes -/

/-- What the changes of a mistake do to a model, when this target was chosen. -/
structure Instance.Corrected [LinearOrder α] (inst : Instance) (chosen : Nat)
    (changes : List (Pair × α)) (model next : Model α) : Prop where
  /-- The chosen target is the first of those that score best, and not the right one. -/
  best : ∃ best, IsFirstMax (inst.scores model) chosen best
  wrong : chosen ≠ inst.current.gold
  /-- No pair is changed twice. -/
  nodup : (changes.map Prod.fst).Nodup
  /-- The pairs that count for the right target alone gain 1, and those that count for the chosen
  one alone lose 1. -/
  mem_changes : ∀ pair amount, (pair, amount) ∈ changes ↔
    amount = 1 ∧ pair ∈ inst.pairs model inst.current.gold ∧ pair ∉ inst.pairs model chosen ∨
      amount = -1 ∧ pair ∈ inst.pairs model chosen ∧ pair ∉ inst.pairs model inst.current.gold
  /-- Each of them has a weight, and that is what moves. -/
  moved : ∀ pair amount, (pair, amount) ∈ changes →
    ∃ weight, model.weights.find? pair.first pair.second = some weight ∧
      next.weights.find? pair.first pair.second = some (weight + amount)
  /-- No other weight moves, none is added, and the rest of the model stays as it is. -/
  kept : ∀ a b, (∀ change ∈ changes, (change.1.first, change.1.second) ≠ (a, b)) →
    next.weights.find? a b = model.weights.find? a b
  rest : next = { model with weights := next.weights }
  /-- The right target gains on the chosen one by as many as there are changes. -/
  gain : next.weights.score (inst.active next inst.current.gold)
      - next.weights.score (inst.active next chosen)
    = model.weights.score (inst.active model inst.current.gold)
      - model.weights.score (inst.active model chosen) + changes.length

/-- A stored weight is found as it is. -/
lemma find?_eq_get (h : (model.weights.find? pair.first pair.second).isSome = true) :
    model.weights.find? pair.first pair.second = some (model.weights.get pair) := by
  obtain ⟨weight, hweight⟩ := Option.isSome_iff_exists.1 h
  rw [WeightTable.get, hweight, Option.getD_some]

/-- A pair is updated by what it is to be turned by. -/
lemma turn_of_mem_updates {amount : α} (h : (pair, amount) ∈ inst.updates model chosen) :
    inst.turn model chosen pair = amount := by
  rcases mem_updates.1 h with ⟨rfl, hmem, hnot⟩ | ⟨rfl, hmem, hnot⟩
  · simp [Instance.turn, hmem, hnot]
  · simp [Instance.turn, hmem, hnot]

/-- There are as many changes as pairs in which the two targets differ. -/
lemma length_updates (model : Model α) (inst : Instance) (chosen : Nat) :
    (inst.updates model chosen).length = inst.spread model chosen := by
  have hpairs : ((inst.updates model chosen).map Prod.fst).toFinset
      = symmDiff (inst.pairs model inst.current.gold) (inst.pairs model chosen) := by
    ext pair
    simp only [List.mem_toFinset, List.mem_map, Prod.exists, exists_and_right, exists_eq_right,
      mem_updates, Finset.mem_symmDiff, exists_or, exists_eq, true_and]
  rw [Instance.spread, ← hpairs, List.toFinset_card_of_nodup nodup_updates, List.length_map]

/-- **The right target gains on the chosen one.**  A change of a weight is a turn along itself. -/
lemma gain_updates (h : model.weights.Ordered) (inst : Instance) (chosen : Nat) :
    let next := (inst.updates model chosen).foldl addWeight model
    next.weights.score (inst.active next inst.current.gold)
        - next.weights.score (inst.active next chosen)
      = model.weights.score (inst.active model inst.current.gold)
        - model.weights.score (inst.active model chosen) + (inst.updates model chosen).length := by
  intro next
  have hscore : ∀ index, next.weights.score (inst.active next index)
      = model.weights.score (inst.active model index)
        + ∑ pair ∈ inst.pairs model index, inst.turn model chosen pair := by
    intro index
    rw [score_eq_sum, score_eq_sum, (reweighted_updates h inst chosen).pairs_eq,
      ← Finset.sum_add_distrib]
    exact Finset.sum_congr rfl fun pair _ => get_foldl_updates h inst chosen pair
  have hturn : ∑ pair ∈ inst.pairs model inst.current.gold, inst.turn model chosen pair
      - ∑ pair ∈ inst.pairs model chosen, inst.turn model chosen pair
        = (inst.updates model chosen).length := by
    rw [← sum_mul_turn h, length_updates, ← sum_turn_sq h]
    simp only [sq]
  rw [hscore, hscore, add_sub_add_comm, hturn]

variable [LinearOrder α] {corpus : Corpus}

/-- The changes after a mistake correct the model. -/
lemma corrected_foldl_addWeight (h : model.weights.Ordered) {changes : List (Pair × α)}
    (hchanges : instanceUpdates model inst.before inst.current inst.behind = some changes)
    (hne : inst.current.unit.targets ≠ []) :
    ∃ chosen, inst.Corrected chosen changes model (changes.foldl addWeight model) := by
  obtain ⟨chosen, best, hbest, hwrong, rfl⟩ := exists_chosen hchanges hne
  refine ⟨chosen, ⟨best, hbest⟩, hwrong, nodup_updates, fun _ _ => mem_updates, ?_, ?_,
    foldl_addWeight_eq _ _, gain_updates h inst chosen⟩
  · intro pair amount hmem
    have hstored : (model.weights.find? pair.first pair.second).isSome = true :=
      stored_of_mem_updates hmem
    refine ⟨model.weights.get pair, find?_eq_get hstored, ?_⟩
    rw [← turn_of_mem_updates hmem, ← get_foldl_updates h]
    exact find?_eq_get (((reweighted_updates h inst chosen).stored _ _).trans hstored)
  · intro a b hother
    exact weights_find?_foldl_addWeight h hother

/-! ## Instances -/

/-- What an instance does to a model. -/
structure Instance.Step (inst : Instance) (model next : Model α) : Prop where
  /-- It changes nothing just when the right target is the first of those that score best. -/
  none_iff : instanceUpdates model inst.before inst.current inst.behind = none ↔
    ∃ best, IsFirstMax (inst.scores model) inst.current.gold best
  of_none : instanceUpdates model inst.before inst.current inst.behind = none → next = model
  of_some : ∀ changes, instanceUpdates model inst.before inst.current inst.behind = some changes →
    ∃ chosen, inst.Corrected chosen changes model next

/-- Nothing is changed just when the right target is the first of the best ones. -/
lemma instanceUpdates_eq_none_iff (model : Model α) (h : inst.current.unit.ambiguous = true) :
    instanceUpdates model inst.before inst.current inst.behind = none ↔
      ∃ best, IsFirstMax (inst.scores model) inst.current.gold best := by
  constructor
  · intro hnone
    exact Instance.Right.isFirstMax hnone h
  · rintro ⟨best, hgold⟩
    obtain ⟨best', hbest⟩ := isFirstMax_scores model (targets_ne_nil h)
    rw [instanceUpdates_eq, if_pos (hbest.unique hgold)]

/-- **What an instance does.** -/
lemma step_correct (h : model.weights.Ordered) (hambiguous : inst.current.unit.ambiguous = true) :
    inst.Step model (correct model inst) where
  none_iff := instanceUpdates_eq_none_iff model hambiguous
  of_none hnone := by
    rw [correct, Instance.changes, hnone]
    rfl
  of_some changes hchanges := by
    rw [correct, Instance.changes, hchanges]
    exact corrected_foldl_addWeight h hchanges (targets_ne_nil hambiguous)

/-- An instance does so in a pass. -/
lemma step_take (h : pass.Sound) (hambiguous : inst.current.unit.ambiguous = true) :
    inst.Step pass.model (pass.take inst).model := by
  obtain ⟨-, -, hmodel, -⟩ := take_spec h hambiguous
  rw [hmodel]
  exact step_correct h.weights hambiguous

/-! ## Passes -/

/-- The model of a pass is corrected by one instance after the other. -/
lemma model_foldl_take (h : pass.Sound)
    (hambiguous : ∀ inst ∈ instances, inst.current.unit.ambiguous = true) :
    (instances.foldl Pass.take pass).model = instances.foldl correct pass.model := by
  induction instances generalizing pass with
  | nil => rfl
  | cons inst instances ih =>
      obtain ⟨hinst, hrest⟩ := List.forall_mem_cons.1 hambiguous
      obtain ⟨hsound, -, hmodel, -⟩ := take_spec h hinst
      rw [List.foldl_cons, ih hsound hrest, hmodel, List.foldl_cons]

/-- Instances change weights only. -/
lemma reweighted_foldl_correct (h : Reweighted model model') (instances : List Instance) :
    Reweighted model (instances.foldl correct model') := by
  induction instances generalizing model' with
  | nil => exact h
  | cons inst instances ih => exact ih (h.trans (reweighted_correct h.ordered inst))

/-- Instances leave a weight alone that none of them changes. -/
lemma weights_find?_foldl_correct (h : model.weights.Ordered)
    (hne : ∀ pair, Changes model pair instances → (pair.first, pair.second) ≠ (a, b)) :
    (instances.foldl correct model).weights.find? a b = model.weights.find? a b := by
  induction instances generalizing model with
  | nil => rfl
  | cons inst instances ih =>
      have hinst : ∀ change ∈ inst.changes model,
          (change.1.first, change.1.second) ≠ (a, b) :=
        fun change hchange => hne change.1 (Or.inl (List.mem_map_of_mem hchange))
      rw [List.foldl_cons, ih (reweighted_correct h inst).ordered fun pair hpair =>
        hne pair (Or.inr hpair), correct, weights_find?_foldl_addWeight h hinst]

/-- Only pairs with a weight are changed in a pass. -/
lemma stored_of_changes (h : Reweighted model model') (hchanges : Changes model' pair instances) :
    (model.weights.find? pair.first pair.second).isSome = true := by
  induction instances generalizing model' with
  | nil => exact hchanges.elim
  | cons inst instances ih =>
      rcases hchanges with hmem | hchanges
      · obtain ⟨change, hchange, rfl⟩ := List.mem_map.1 hmem
        rw [Instance.changes, instanceUpdates_eq] at hchange
        split at hchange
        · cases hchange
        · rw [← h.stored]
          exact stored_of_mem_updates hchange
      · exact ih (h.trans (reweighted_correct h.ordered inst)) hchanges

omit [LinearOrder α] in
/-- Settling leaves a weight alone that has not changed. -/
lemma weights_find?_foldl_settle (count : Nat) (h : model.weights.Ordered)
    {accounts : List (Pair × Account α)}
    (hne : ∀ entry ∈ accounts, 0 < entry.2.changed → (entry.1.first, entry.1.second) ≠ (a, b)) :
    (accounts.foldl (settle count) model).weights.find? a b = model.weights.find? a b := by
  induction accounts generalizing model with
  | nil => rfl
  | cons entry accounts ih =>
      obtain ⟨hentry, hrest⟩ := List.forall_mem_cons.1 hne
      rw [List.foldl_cons, ih (ordered_settle count h entry) hrest, settle]
      split
      · rename_i hchanged
        exact weights_find?_setWeight h (hentry hchanged) _
      · rfl

omit [LinearOrder α] in
/-- Settling changes weights only. -/
lemma reweighted_foldl_settle (count : Nat) (h : Reweighted model model')
    {accounts : List (Pair × Account α)}
    (hstored : ∀ entry ∈ accounts, 0 < entry.2.changed →
      (model.weights.find? entry.1.first entry.1.second).isSome = true) :
    Reweighted model (accounts.foldl (settle count) model') := by
  induction accounts generalizing model' with
  | nil => exact h
  | cons entry accounts ih =>
      obtain ⟨hentry, hrest⟩ := List.forall_mem_cons.1 hstored
      refine ih ?_ hrest
      rw [settle]
      split
      · rename_i hchanged
        exact h.setWeight (hentry hchanged) _
      · exact h

/-- The accounts that are settled are those of the pairs that a pass has changed. -/
lemma changes_of_mem_accounts (h : model.weights.Ordered)
    (hambiguous : ∀ inst ∈ instances, inst.current.unit.ambiguous = true)
    {entry : Pair × Account α} (hmem : entry ∈ (passOver model instances).accounts)
    (hchanged : 0 < entry.2.changed) : Changes model entry.1 instances := by
  obtain ⟨hsound, haccount⟩ := start_spec h
  obtain ⟨-, -, -, hiff⟩ := foldl_take_spec hsound hambiguous
  have haccounts := (sound_passOver h hambiguous).accounts
  have hfound : (passOver model instances).account entry.1 = entry.2 := by
    rw [Pass.account, (Ascending.find?_eq_some_iff haccounts).2 hmem, Option.getD_some]
  rw [← hfound] at hchanged
  refine ((hiff entry.1).1 hchanged).resolve_right ?_
  rw [haccount]
  exact Nat.lt_irrefl 0

/-- **What a pass does to the table.**  It stores the same pairs, and a pair that no instance
changes keeps its weight. -/
lemma iterate_spec (h : model.weights.Ordered) (corpus : Corpus) :
    Reweighted model (iterate corpus model).2 ∧
      ∀ a b, (∀ pair, Changes model pair (instancesOf corpus) →
          (pair.first, pair.second) ≠ (a, b)) →
        (iterate corpus model).2.weights.find? a b = model.weights.find? a b := by
  have hambiguous : ∀ inst ∈ instancesOf corpus, inst.current.unit.ambiguous = true :=
    fun inst hinst => ambiguous_of_mem_instancesOf hinst
  have hmodel : (passOver model (instancesOf corpus)).model
      = (instancesOf corpus).foldl correct model :=
    model_foldl_take (start_spec h).1 hambiguous
  have hpass : Reweighted model (passOver model (instancesOf corpus)).model :=
    hmodel ▸ reweighted_foldl_correct (.refl h) _
  rw [iterate_eq]
  constructor
  · refine reweighted_foldl_settle _ hpass fun entry hmem hchanged => ?_
    exact stored_of_changes (.refl h) (changes_of_mem_accounts h hambiguous hmem hchanged)
  · intro a b hne
    have hkept : (passOver model (instancesOf corpus)).model.weights.find? a b
        = model.weights.find? a b := by
      rw [hmodel]
      exact weights_find?_foldl_correct h hne
    rw [← hkept]
    refine weights_find?_foldl_settle _ hpass.ordered fun entry hmem hchanged => ?_
    exact hne entry.1 (changes_of_mem_accounts h hambiguous hmem hchanged)

/-! ## Trainings -/

/-- A training ends with one more pass. -/
lemma model_trainFrom_succ (corpus : Corpus) (passes : Nat) (summary : Summary) (model : Model α) :
    (trainFrom corpus (passes + 1) summary model).2
      = (iterate corpus (trainFrom corpus passes summary model).2).2 := by
  induction passes generalizing summary model with
  | zero => rfl
  | succ passes ih => exact ih _ _

/-- A training changes weights only. -/
lemma reweighted_train (h : model.weights.Ordered) (corpus : Corpus) (passes : Nat) :
    Reweighted model (train corpus passes model).2 := by
  induction passes with
  | zero => exact .refl h
  | succ passes ih =>
      rw [train, model_trainFrom_succ]
      exact ih.trans (iterate_spec ih.ordered corpus).1

/-- **What training does, step by step.**  In each pass every instance takes its step, with the
weights that are in force when it is scored.  However many passes there were, the pairs with a
weight are those of the beginning; a pair that is changed by no instance of a pass keeps its weight
in it; and neither the order of the changes of an instance nor the order in which accounts are
settled matters. -/
theorem training_step (h : model.weights.Ordered) (corpus : Corpus) (passes : Nat) :
    let earlier := (train corpus passes model).2
    let later := (train corpus (passes + 1) model).2
    iterate corpus earlier = (passOver earlier (instancesOf corpus), later) ∧
      (∀ front inst rest, instancesOf corpus = front ++ inst :: rest →
        inst.Step (passOver earlier front).model (passOver earlier (front ++ [inst])).model) ∧
      (∀ a b, (later.weights.find? a b).isSome = (model.weights.find? a b).isSome) ∧
      (∀ a b, (∀ pair, Changes earlier pair (instancesOf corpus) →
          (pair.first, pair.second) ≠ (a, b)) →
        later.weights.find? a b = earlier.weights.find? a b) ∧
      ∀ result, TrainsTo corpus passes {} model result ↔ result = train corpus passes model := by
  intro earlier later
  have hearlier : Reweighted model earlier := reweighted_train h corpus passes
  have hlater : later = (iterate corpus earlier).2 := model_trainFrom_succ corpus passes {} model
  refine ⟨?_, ?_, (reweighted_train h corpus (passes + 1)).stored, ?_, trainsTo_iff h passes {}⟩
  · rw [hlater, iterate_eq]
  · intro front inst rest hsplit
    have hambiguous : ∀ inst ∈ instancesOf corpus, inst.current.unit.ambiguous = true :=
      fun inst hinst => ambiguous_of_mem_instancesOf hinst
    rw [hsplit] at hambiguous
    obtain ⟨hfront, hinst⟩ := List.forall_mem_append.1 hambiguous
    have hnext : passOver earlier (front ++ [inst]) = (passOver earlier front).take inst := by
      rw [passOver, List.foldl_append]
      rfl
    rw [hnext]
    exact step_take (sound_passOver hearlier.ordered hfront) (hinst inst List.mem_cons_self)
  · rw [hlater]
    exact (iterate_spec hearlier.ordered corpus).2

/-- In a first pass over a corpus of one unit another target than the right one scores best.  The
weights of the two pairs in which they differ move by 1 each, and the right target gains 2 on it. -/
theorem training_step_two_forms :
    let inst : Instance := ⟨[], ⟨⟨[], some ⟨[.plain 'x'], [0]⟩,
      [⟨[.plain 'a'], [0, 1]⟩, ⟨[.plain 'b'], [0, 2]⟩]⟩, 0⟩, []⟩
    instancesOf oneUnit = [inst] ∧
      ∃ chosen, inst.Corrected chosen [(.unary ⟨0, 1⟩, 1), (.unary ⟨0, 2⟩, -1)] twoForms
        (passOver twoForms [inst]).model := by
  intro inst
  have hordered : twoForms.weights.Ordered :=
    WeightTable.ordered_alter (WeightTable.ordered_alter WeightTable.ordered_empty _ _) _ _
  have hchanges : instanceUpdates twoForms inst.before inst.current inst.behind
      = some [(.unary ⟨0, 1⟩, 1), (.unary ⟨0, 2⟩, -1)] := by decide +kernel
  obtain ⟨-, hstep, -⟩ := training_step hordered oneUnit 0
  exact ⟨rfl, (hstep [] inst [] rfl).of_some _ hchanges⟩

end LexicalSelection.Perceptron
