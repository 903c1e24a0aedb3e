import LexicalSelection.Proofs.Training.MistakeBound

/-!
# Training in any order

The changes of an instance are for different pairs, and so are the accounts of a pass.  What is done
for one pair touches no other one.  So the changes can be made in any order, and the accounts
settled in any order, whenever that is done in a training: the result is the same.

* `foldl_eq_of_perm` — a row of steps for different keys, of which any two can change places.
* **`update_comm`**, **`settle_comm`** — so it is with changes, and with the settling of accounts.
* `TrainsTo` — a training in which each such row is taken in some order.
* **`trainsTo_iff`** — it comes to what the training comes to.
-/

namespace LexicalSelection.Perceptron

/-! ## Steps that can change places -/

section Steps

variable {σ β κ : Type} {step : σ → β → σ} {key : β → κ} {Good : σ → Prop}

/-- A row of steps for different keys can be taken in any order, when any two of them can change
places in a good state, and the states stay good. -/
lemma foldl_eq_of_perm (hgood : ∀ s b, Good s → Good (step s b))
    (hcomm : ∀ s b b', Good s → key b ≠ key b' → step (step s b) b' = step (step s b') b)
    {order row : List β} (hperm : order.Perm row) (hnodup : (row.map key).Nodup) {s : σ}
    (hs : Good s) : order.foldl step s = row.foldl step s := by
  induction hperm generalizing s with
  | nil => rfl
  | cons b _ ih =>
      exact ih (List.nodup_cons.1 hnodup).2 (hgood s b hs)
  | swap b b' rest =>
      have hne : key b ≠ key b' := by
        intro heq
        simp [heq] at hnodup
      rw [List.foldl_cons, List.foldl_cons, List.foldl_cons, List.foldl_cons,
        hcomm s b' b hs hne.symm]
  | trans _ hperm' ih ih' =>
      have hmiddle := ((hperm'.map key).nodup_iff).2 hnodup
      rw [ih hmiddle hs, ih' hnodup hs]

end Steps

variable {α : Type} [Field α] {model : Model α} {pass pass' : Pass α} {inst : Instance}
  {instances : List Instance}

/-! ## Changes and accounts -/

/-- **Two changes for different pairs can change places.** -/
lemma update_comm (h : pass.Sound) {pair pair' : Pair} (hne : pair ≠ pair') (delta delta' : α) :
    (pass.update pair delta).update pair' delta' =
      (pass.update pair' delta').update pair delta := by
  have hget : (pass.update pair delta).model.weights.get pair' = pass.model.weights.get pair' := by
    rw [get_update h, if_neg hne.symm]
  have hget' : (pass.update pair' delta').model.weights.get pair = pass.model.weights.get pair := by
    rw [get_update h, if_neg hne]
  have hweights : ∀ weight weight', (pass.model.weights.set pair weight).set pair' weight'
      = (pass.model.weights.set pair' weight').set pair weight := by
    intro weight weight'
    exact WeightTable.alter_comm h.weights hne _ _
  have haccounts : ∀ f g, Ascending.alter pair' f (Ascending.alter pair g pass.accounts)
      = Ascending.alter pair g (Ascending.alter pair' f pass.accounts) := by
    intro f g
    exact Ascending.alter_comm h.accounts hne.symm
  rw [Pass.update, hget, Pass.update.eq_def (pass.update pair' delta'), hget']
  simp only [Pass.update, Model.setWeight, hweights, haccounts]

/-- Changes for different pairs can be made in any order. -/
lemma updateAll_eq_of_perm (h : pass.Sound) {order changes : List (Pair × α)}
    (hperm : order.Perm changes) (hnodup : (changes.map Prod.fst).Nodup) :
    pass.updateAll order = pass.updateAll changes := by
  have hgood : ∀ (pass : Pass α) (change : Pair × α), pass.Sound →
      (pass.update change.1 change.2).Sound := by
    intro pass change hpass
    exact sound_update hpass _ _
  have hcomm : ∀ (pass : Pass α) (change change' : Pair × α), pass.Sound → change.1 ≠ change'.1 →
      (pass.update change.1 change.2).update change'.1 change'.2
        = (pass.update change'.1 change'.2).update change.1 change.2 := by
    intro pass change change' hpass hne
    exact update_comm hpass hne _ _
  exact foldl_eq_of_perm hgood hcomm hperm hnodup h

/-- **The accounts of two different pairs can be settled in any order.** -/
lemma settle_comm (count : Nat) (h : model.weights.Ordered) {entry entry' : Pair × Account α}
    (hne : entry.1 ≠ entry'.1) : settle count (settle count model entry) entry'
      = settle count (settle count model entry') entry := by
  have hget := get_settle_of_ne count h hne
  have hget' := get_settle_of_ne count h hne.symm
  rw [settle, hget, settle.eq_def count (settle count model entry'), hget']
  simp only [settle]
  split_ifs
  · simp only [Model.setWeight]
    congr 1
    exact WeightTable.alter_comm h hne _ _
  · rfl
  · rfl
  · rfl

lemma settleAll_eq_of_perm (count : Nat) (h : model.weights.Ordered)
    {order accounts : List (Pair × Account α)} (hperm : order.Perm accounts)
    (haccounts : Ascending.StrictKeys accounts) :
    order.foldl (settle count) model = accounts.foldl (settle count) model := by
  have hgood : ∀ (model : Model α) (entry : Pair × Account α), model.weights.Ordered →
      (settle count model entry).weights.Ordered := by
    intro model entry hmodel
    exact ordered_settle count hmodel entry
  have hcomm : ∀ (model : Model α) (entry entry' : Pair × Account α), model.weights.Ordered →
      entry.1 ≠ entry'.1 → settle count (settle count model entry) entry'
        = settle count (settle count model entry') entry := by
    intro model entry entry' hmodel hne
    exact settle_comm count hmodel hne
  have hstrict : Ascending.Strict (accounts.map Prod.fst) := List.pairwise_map.2 haccounts
  exact foldl_eq_of_perm hgood hcomm hperm hstrict.nodup h

/-- No pair is changed twice by an instance. -/
lemma nodup_updates {chosen : Nat} :
    ((inst.updates model chosen).map Prod.fst).Nodup := by
  have hfirst : ∀ (pairs : List Pair) (amount : α),
      (pairs.map fun pair => (pair, amount)).map Prod.fst = pairs := by
    intro pairs amount
    rw [List.map_map]
    exact List.map_id pairs
  rw [Instance.updates, updates, List.map_append, hfirst, hfirst]
  refine (nodup_scored.filter _).append (nodup_scored.filter _) ?_
  intro pair hright hchosen
  have hnot : pair ∉ (model.weights.scored (inst.active model chosen)).map Prod.fst := by
    simpa using (List.mem_filter.1 hright).2
  exact hnot (List.mem_filter.1 hchosen).1

/-! ## Trainings -/

variable [LinearOrder α] {corpus : Corpus}

/-- The pass after one instance more, whose changes are made in some order. -/
inductive Pass.TakesTo (pass : Pass α) (inst : Instance) : Pass α → Prop
  | right (h : instanceUpdates pass.model inst.before inst.current inst.behind = none) :
      TakesTo pass inst { pass with instances := pass.instances + 1 }
  | wrong {changes order : List (Pair × α)}
      (h : instanceUpdates pass.model inst.before inst.current inst.behind = some changes)
      (hperm : order.Perm changes) :
      TakesTo pass inst (Pass.updateAll
        { pass with instances := pass.instances + 1, mistakes := pass.mistakes + 1 } order)

/-- The pass after some instances more, the changes of each of which are made in some order. -/
inductive Pass.RunsTo : Pass α → List Instance → Pass α → Prop
  | done (pass : Pass α) : RunsTo pass [] pass
  | take {pass pass' pass'' : Pass α} {inst : Instance} {instances : List Instance}
      (h : pass.TakesTo inst pass') (hrest : RunsTo pass' instances pass'') :
      RunsTo pass (inst :: instances) pass''

/-- What some passes more come to, behind those of a summary.  In each of them the changes of each
instance are made in some order, and at its end the accounts are settled in some order. -/
inductive TrainsTo (corpus : Corpus) : Nat → Summary → Model α → Summary × Model α → Prop
  | done (summary : Summary) (model : Model α) : TrainsTo corpus 0 summary model (summary, model)
  | pass {passes : Nat} {summary : Summary} {model : Model α} {pass : Pass α}
      {order : List (Pair × Account α)} {result : Summary × Model α}
      (hrun : (start model).RunsTo (instancesOf corpus) pass) (hperm : order.Perm pass.accounts)
      (hrest : TrainsTo corpus passes
        { iterations := summary.iterations + 1, instances := pass.instances
          mistakes := pass.mistakes } (order.foldl (settle pass.instances) pass.model) result) :
      TrainsTo corpus (passes + 1) summary model result

lemma takesTo_iff (h : pass.Sound) (hambiguous : inst.current.unit.ambiguous = true) :
    pass.TakesTo inst pass' ↔ pass' = pass.take inst := by
  cases hupdates : instanceUpdates pass.model inst.before inst.current inst.behind with
  | none =>
      rw [take_of_right hupdates hambiguous]
      constructor
      · rintro (_ | ⟨hsome, -⟩)
        · rfl
        · cases hupdates.symm.trans hsome
      · rintro rfl
        exact .right hupdates
  | some changes =>
      have htake : pass.take inst = Pass.updateAll
          { pass with instances := pass.instances + 1, mistakes := pass.mistakes + 1 } changes := by
        simp [Pass.take, Pass.visit, hambiguous, hupdates, Pass.updateAll]
      rw [htake]
      constructor
      · rintro (hnone | ⟨hsome, hperm⟩)
        · cases hupdates.symm.trans hnone
        · obtain rfl := Option.some.inj (hupdates.symm.trans hsome)
          obtain ⟨chosen, -, -, -, rfl⟩ :=
            exists_chosen hupdates (targets_ne_nil hambiguous)
          exact updateAll_eq_of_perm (h.next _) hperm nodup_updates
      · rintro rfl
        exact .wrong hupdates (.refl _)

/-- A run in any order is the run. -/
lemma runsTo_iff (h : pass.Sound)
    (hambiguous : ∀ inst ∈ instances, inst.current.unit.ambiguous = true) :
    pass.RunsTo instances pass' ↔ pass' = instances.foldl Pass.take pass := by
  induction instances generalizing pass with
  | nil =>
      constructor
      · rintro ⟨⟩
        rfl
      · rintro rfl
        exact .done pass'
  | cons inst instances ih =>
      obtain ⟨hinst, hrest⟩ := List.forall_mem_cons.1 hambiguous
      have hsound := (take_spec h hinst).1
      constructor
      · rintro (_ | ⟨htake, hrun⟩)
        obtain rfl := (takesTo_iff h hinst).1 htake
        exact (ih hsound hrest).1 hrun
      · intro hpass
        exact .take ((takesTo_iff h hinst).2 rfl) ((ih hsound hrest).2 hpass)

omit [LinearOrder α] in
lemma ordered_foldl_settle (count : Nat) (h : model.weights.Ordered)
    (accounts : List (Pair × Account α)) :
    (accounts.foldl (settle count) model).weights.Ordered := by
  induction accounts generalizing model with
  | nil => exact h
  | cons entry accounts ih => exact ih (ordered_settle count h entry)

/-- The accounts of a whole pass can be settled in any order. -/
lemma settleAll_passOver (h : model.weights.Ordered)
    (hambiguous : ∀ inst ∈ instances, inst.current.unit.ambiguous = true)
    {order : List (Pair × Account α)} (hperm : order.Perm (passOver model instances).accounts) :
    order.foldl (settle (passOver model instances).instances) (passOver model instances).model
      = (passOver model instances).finish := by
  have hsound := sound_passOver h hambiguous
  exact settleAll_eq_of_perm _ hsound.weights hperm hsound.accounts

/-- **A training in any order is the training**, behind any summary. -/
lemma trainsTo_iff (h : model.weights.Ordered) (passes : Nat) (summary : Summary)
    (result : Summary × Model α) :
    TrainsTo corpus passes summary model result
      ↔ result = trainFrom corpus passes summary model := by
  have hambiguous : ∀ inst ∈ instancesOf corpus, inst.current.unit.ambiguous = true :=
    fun inst hinst => ambiguous_of_mem_instancesOf hinst
  induction passes generalizing summary model with
  | zero =>
      constructor
      · rintro ⟨⟩
        rfl
      · rintro rfl
        exact .done summary model
  | succ passes ih =>
      have hfinish : (passOver model (instancesOf corpus)).finish.weights.Ordered :=
        ordered_foldl_settle _ (sound_passOver h hambiguous).weights _
      rw [trainFrom, iterate_eq]
      constructor
      · rintro (_ | ⟨hrun, hperm, hrest⟩)
        obtain rfl := (runsTo_iff (start_spec h).1 hambiguous).1 hrun
        have hsettled := settleAll_passOver h hambiguous hperm
        rw [passOver] at hsettled hfinish
        rw [hsettled] at hrest
        exact (ih hfinish _).1 hrest
      · intro hresult
        have hrun := (runsTo_iff (start_spec h).1 hambiguous).2 (rfl : passOver model _ = _)
        exact .pass hrun (.refl _) ((ih hfinish _).2 hresult)

end LexicalSelection.Perceptron
