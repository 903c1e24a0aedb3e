import LexicalSelection.Proofs.Model.WeightTable
import LexicalSelection.Training.Perceptron
import Mathlib.Algebra.Order.Field.Basic
import Mathlib.Algebra.Order.Ring.Rat
import Mathlib.Tactic.Ring

/-!
# What a pass makes of a weight

A pass is compared with the plain perceptron, which keeps no accounts: it corrects the model after
each instance, and the weight that a pair has while an instance is scored can be read off the row of
its models.  Arithmetic is exact.

* `instancesOf` — the ambiguous examples of a corpus in order.
* `correct`, `inForce` — the plain perceptron, and the models that its instances are scored with.
* `Changes` — some instance changes the weight of a pair.
* `Pass.accrued` — what an account comes to when it is brought up to date.
* **`accrued_passOver`** — it is the snapshot of the weight and the sum of its values so far.
* **`weight_iterate`** — a changed weight becomes that sum, snapshot included, over the number of
  instances.  So it is the mean of its values only when the snapshot is 0.
* **`weight_not_mean`** — a weight other than 0 need not even stay between its values.
-/

namespace LexicalSelection.Perceptron

/-! ## The plain perceptron -/

/-- An example that is scored, between the examples of its sentence. -/
structure Instance where
  before : List Example
  current : Example
  behind : Sentence

/-- The ambiguous examples in the rest of a sentence. -/
def sentenceInstances (before : List Example) : Sentence → List Instance
  | [] => []
  | current :: behind =>
    if current.unit.ambiguous then
      ⟨before, current, behind⟩ :: sentenceInstances (current :: before) behind
    else sentenceInstances (current :: before) behind

/-- The ambiguous examples of a corpus. -/
def instancesOf (corpus : Corpus) : List Instance := corpus.flatMap (sentenceInstances [])

variable {α : Type} [Field α]

/-- The model with an amount added to a weight. -/
def addWeight (model : Model α) (change : Pair × α) : Model α :=
  model.setWeight change.1 (model.weights.get change.1 + change.2)

/-- The weight that the table lists for a pair, the last one when it lists several, and 0 when it
lists none. -/
def snapshot (model : Model α) (pair : Pair) : α :=
  (((model.weights.entries.filter (·.1 = pair)).getLast?).map Prod.snd).getD 0

section Plain

variable [LinearOrder α]

/-- What an instance adds to weights when it is scored with a model. -/
def Instance.changes (inst : Instance) (model : Model α) : List (Pair × α) :=
  (instanceUpdates model inst.before inst.current inst.behind).getD []

/-- The model after an instance. -/
def correct (model : Model α) (inst : Instance) : Model α :=
  (inst.changes model).foldl addWeight model

/-- The models that are in force while the instances are scored, one for each instance. -/
def inForce (model : Model α) : List Instance → List (Model α)
  | [] => []
  | inst :: rest => model :: inForce (correct model inst) rest

/-- Does some instance change the weight of the pair? -/
def Changes (model : Model α) (pair : Pair) : List Instance → Prop
  | [] => False
  | inst :: rest =>
    pair ∈ (inst.changes model).map Prod.fst ∨ Changes (correct model inst) pair rest

end Plain

/-! ## Accounts -/

/-- The account of a pair; one that has none starts from nothing. -/
def Pass.account (pass : Pass α) (pair : Pair) : Account α :=
  (Ascending.find? pair pass.accounts).getD ⟨0, 0⟩

/-- What the account of a pair comes to when it is brought up to date: its total, and the weight for
each instance since the last change. -/
def Pass.accrued (pass : Pass α) (pair : Pair) : α :=
  (pass.account pair).total
    + pass.model.weights.get pair * ((pass.instances - (pass.account pair).changed : Nat) : α)

/-- The weights and the accounts are in order, and no change lies in the future. -/
structure Pass.Sound (pass : Pass α) : Prop where
  weights : pass.model.weights.Ordered
  accounts : Ascending.StrictKeys pass.accounts
  changed_le : ∀ pair, (pass.account pair).changed ≤ pass.instances

/-- Updating a pair charges its own account, and no other one. -/
lemma account_update {pass : Pass α} (h : pass.Sound) (pair pair' : Pair) (delta : α) :
    (pass.update pair delta).account pair' =
      if pair' = pair then (pass.account pair).charge (pass.model.weights.get pair) pass.instances
      else pass.account pair' := by
  rw [Pass.account, Pass.update, Ascending.find?_alter h.accounts]
  split
  · rfl
  · rfl

/-- Updating a pair adds to its own weight, and to no other one. -/
lemma get_update {pass : Pass α} (h : pass.Sound) (pair pair' : Pair) (delta : α) :
    (pass.update pair delta).model.weights.get pair' =
      if pair' = pair then pass.model.weights.get pair + delta else pass.model.weights.get pair' :=
  WeightTable.get_set h.weights pair pair' _

/-- The weights and the accounts stay in order when a pair is updated. -/
lemma sound_update {pass : Pass α} (h : pass.Sound) (pair : Pair) (delta : α) :
    (pass.update pair delta).Sound where
  weights := WeightTable.ordered_alter h.weights _ _
  accounts := Ascending.strictKeys_alter h.accounts
  changed_le pair' := by
    rw [account_update h]
    split
    · exact le_refl pass.instances
    · exact h.changed_le pair'

/-- An instance more puts no change into the future. -/
lemma Pass.Sound.next {pass : Pass α} (h : pass.Sound) (mistakes : Nat) :
    Pass.Sound { pass with instances := pass.instances + 1, mistakes } where
  weights := h.weights
  accounts := h.accounts
  changed_le pair := Nat.le_succ_of_le (h.changed_le pair)

/-- **A change moves nothing but the weight**: what the accounts come to stays the same, since the
old value is charged up to the instance of the change. -/
lemma accrued_update {pass : Pass α} (h : pass.Sound) (pair pair' : Pair) (delta : α) :
    (pass.update pair delta).accrued pair' = pass.accrued pair' := by
  have hinstances : (pass.update pair delta).instances = pass.instances := rfl
  rw [Pass.accrued, account_update h, get_update h, hinstances]
  by_cases hpair : pair' = pair
  · rw [if_pos hpair, if_pos hpair, Account.charge, Nat.sub_self, Nat.cast_zero, mul_zero, add_zero,
      hpair]
    rfl
  · rw [if_neg hpair, if_neg hpair]
    rfl

/-- The pass after some changes of one instance. -/
def Pass.updateAll (pass : Pass α) (changes : List (Pair × α)) : Pass α :=
  changes.foldl (fun pass (pair, delta) => pass.update pair delta) pass

/-- All that some changes of one instance do. -/
lemma updateAll_spec {pass : Pass α} (h : pass.Sound) (changes : List (Pair × α)) :
    (pass.updateAll changes).Sound ∧
      (pass.updateAll changes).instances = pass.instances ∧
      (pass.updateAll changes).model = changes.foldl addWeight pass.model ∧
      (∀ pair, (pass.updateAll changes).accrued pair = pass.accrued pair) ∧
      ∀ pair, ((pass.updateAll changes).account pair).changed
        = if pair ∈ changes.map Prod.fst then pass.instances else (pass.account pair).changed := by
  induction changes generalizing pass with
  | nil =>
      refine ⟨h, rfl, rfl, fun _ => rfl, fun pair => ?_⟩
      rw [List.map_nil, if_neg List.not_mem_nil]
      rfl
  | cons change changes ih =>
      obtain ⟨pair, delta⟩ := change
      obtain ⟨hsound, hinstances, hmodel, haccrued, hchanged⟩ := ih (sound_update h pair delta)
      refine ⟨hsound, hinstances, hmodel, fun pair' => ?_, fun pair' => ?_⟩
      · rw [← accrued_update h pair pair' delta]
        exact haccrued pair'
      · have hstep := hchanged pair'
        rw [account_update h] at hstep
        rw [List.map_cons]
        by_cases hmem : pair' ∈ changes.map Prod.fst
        · rw [if_pos (List.mem_cons_of_mem _ hmem)]
          rw [if_pos hmem] at hstep
          exact hstep
        · rw [if_neg hmem] at hstep
          by_cases hpair : pair' = pair
          · rw [if_pos (List.mem_cons.2 (Or.inl hpair))]
            rw [if_pos hpair] at hstep
            exact hstep
          · rw [if_neg (fun h => (List.mem_cons.1 h).elim hpair hmem)]
            rw [if_neg hpair] at hstep
            exact hstep

/-! ## The beginning of a pass -/

omit [Field α] in
/-- Of several snapshots for one pair the last one is kept. -/
lemma find?_foldl_put (entries : List (Pair × α)) {accounts : List (Pair × Account α)}
    (h : Ascending.StrictKeys accounts) (pair : Pair) :
    Ascending.StrictKeys (entries.foldl (fun accounts (pair, weight) =>
        Ascending.put pair (⟨weight, 0⟩ : Account α) accounts) accounts) ∧
      Ascending.find? pair (entries.foldl (fun accounts (pair, weight) =>
          Ascending.put pair (⟨weight, 0⟩ : Account α) accounts) accounts)
        = match (entries.filter (·.1 = pair)).getLast? with
          | some entry => some ⟨entry.2, 0⟩
          | none => Ascending.find? pair accounts := by
  induction entries generalizing accounts with
  | nil => exact ⟨h, rfl⟩
  | cons entry entries ih =>
      obtain ⟨pair', weight⟩ := entry
      have hput : Ascending.StrictKeys (Ascending.put pair' (⟨weight, 0⟩ : Account α) accounts) :=
        Ascending.strictKeys_alter h
      obtain ⟨hstrict, hfind⟩ := ih hput
      refine ⟨hstrict, ?_⟩
      rw [List.foldl_cons, hfind, Ascending.put, Ascending.find?_alter h]
      by_cases hpair : pair' = pair
      · rw [List.filter_cons_of_pos (by simpa using hpair), List.getLast?_cons]
        cases (entries.filter (·.1 = pair)).getLast? <;> simp [hpair]
      · rw [List.filter_cons_of_neg (by simpa using hpair)]
        cases (entries.filter (·.1 = pair)).getLast? <;> simp [Ne.symm hpair]

/-- A pass starts with the snapshot of each weight in its account. -/
lemma start_spec {model : Model α} (h : model.weights.Ordered) :
    (start model).Sound ∧ ∀ pair, (start model).account pair = ⟨snapshot model pair, 0⟩ := by
  have hfind := find?_foldl_put model.weights.entries (List.Pairwise.nil : Ascending.StrictKeys [])
  have haccount : ∀ pair, (start model).account pair = ⟨snapshot model pair, 0⟩ := by
    intro pair
    rw [Pass.account, start, (hfind pair).2, snapshot]
    cases (model.weights.entries.filter (·.1 = pair)).getLast? <;> rfl
  refine ⟨⟨h, (hfind (.unary .universal)).1, fun pair => ?_⟩, haccount⟩
  rw [haccount]
  exact Nat.zero_le _

/-- The snapshot of a table that only has locations in order is the weight itself. -/
lemma snapshot_of_canonical {model : Model α} (h : model.weights.Ordered)
    (hcanonical : model.weights.Canonical) (pair : Pair) :
    snapshot model pair = model.weights.get pair := by
  rw [snapshot, WeightTable.get]
  cases hlast : (model.weights.entries.filter (·.1 = pair)).getLast? with
  | some entry =>
      obtain ⟨hmem, hpair⟩ := List.mem_filter.1 (List.mem_of_getLast? hlast)
      obtain rfl : entry.1 = pair := by simpa using hpair
      rw [(WeightTable.mem_entries_of_canonical h hcanonical _ _).1 hmem]
      rfl
  | none =>
      cases hfind : model.weights.find? pair.first pair.second with
      | none => rfl
      | some weight =>
          have hmem := (WeightTable.mem_entries_of_canonical h hcanonical pair weight).2 hfind
          have hfilter : (pair, weight) ∈ model.weights.entries.filter (·.1 = pair) :=
            List.mem_filter.2 ⟨hmem, by simp⟩
          rw [List.getLast?_eq_none_iff.1 hlast] at hfilter
          cases hfilter

/-! ## The end of a pass -/

/-- What an account makes of its weight at the end of a pass. -/
def settle (instances : Nat) (model : Model α) (entry : Pair × Account α) : Model α :=
  if 0 < entry.2.changed then
    model.setWeight entry.1 (entry.2.mean (model.weights.get entry.1) instances)
  else model

/-- Settling an account leaves the weights in order. -/
lemma ordered_settle (instances : Nat) {model : Model α} (h : model.weights.Ordered)
    (entry : Pair × Account α) : (settle instances model entry).weights.Ordered := by
  rw [settle]
  split
  · exact WeightTable.ordered_alter h _ _
  · exact h

/-- Settling an account changes no other weight. -/
lemma get_settle_of_ne (instances : Nat) {model : Model α} (h : model.weights.Ordered)
    {entry : Pair × Account α} {pair : Pair} (hne : entry.1 ≠ pair) :
    (settle instances model entry).weights.get pair = model.weights.get pair := by
  rw [settle]
  split
  · rw [Model.setWeight, WeightTable.get_set h, if_neg hne.symm]
  · rfl

/-- When all accounts have been settled, each weight that has changed is its mean. -/
lemma get_foldl_settle (instances : Nat) {accounts : List (Pair × Account α)} {model : Model α}
    (h : model.weights.Ordered) (haccounts : Ascending.StrictKeys accounts) (pair : Pair) :
    (accounts.foldl (settle instances) model).weights.get pair =
      match Ascending.find? pair accounts with
      | some account =>
        if 0 < account.changed then account.mean (model.weights.get pair) instances
        else model.weights.get pair
      | none => model.weights.get pair := by
  induction accounts generalizing model with
  | nil => rfl
  | cons entry accounts ih =>
      obtain ⟨pair', account⟩ := entry
      obtain ⟨hlt, hrest⟩ := List.pairwise_cons.1 haccounts
      rw [List.foldl_cons, ih (ordered_settle instances h _) hrest, Ascending.find?]
      by_cases hpair : pair = pair'
      · -- no other account of the pair comes behind this one
        have hnone : Ascending.find? pair accounts = none := by
          rw [Option.eq_none_iff_forall_ne_some]
          intro account' hfound
          have hself := hlt _ ((Ascending.find?_eq_some_iff hrest).1 hfound)
          simp [hpair, Std.ReflCmp.compare_self] at hself
        rw [hnone, if_pos (by rw [hpair]; exact Std.ReflCmp.compare_self)]
        show (settle instances model (pair', account)).weights.get pair = _
        rw [settle]
        split
        · rename_i hchanged
          rw [Model.setWeight, WeightTable.get_set h, if_pos hpair, hpair]
          simp only [hchanged, if_true]
        · rename_i hchanged
          simp only [hchanged, if_false]
      · have hne : compare pair pair' ≠ .eq := fun heq => hpair (Std.LawfulEqOrd.eq_of_compare heq)
        have hget : (settle instances model (pair', account)).weights.get pair
            = model.weights.get pair := get_settle_of_ne instances h (Ne.symm hpair)
        rw [hget, if_neg hne]

/-- A weight that has changed ends as what has accrued over the number of instances. -/
lemma get_finish {pass : Pass α} (h : pass.Sound) (pair : Pair) :
    pass.finish.weights.get pair =
      if 0 < (pass.account pair).changed then pass.accrued pair / (pass.instances : α)
      else pass.model.weights.get pair := by
  have hfinish : pass.finish = pass.accounts.foldl (settle pass.instances) pass.model := rfl
  rw [hfinish, get_foldl_settle pass.instances h.weights h.accounts pair, Pass.accrued,
    Pass.account]
  cases hfound : Ascending.find? pair pass.accounts with
  | some account => rfl
  | none => rfl

/-! ## A pass as a row of instances -/

variable [LinearOrder α]

/-- The pass after one instance. -/
def Pass.take (pass : Pass α) (inst : Instance) : Pass α :=
  pass.visit inst.before inst.current inst.behind

/-- A unit with no choice is passed over. -/
lemma visit_of_not_ambiguous (pass : Pass α) (before : List Example) {current : Example}
    (behind : Sentence) (h : current.unit.ambiguous = false) :
    pass.visit before current behind = pass := by
  simp [Pass.visit, h]

/-- Visiting a sentence is taking its instances one after the other. -/
lemma visitSentence_eq (pass : Pass α) (before : List Example) (sentence : Sentence) :
    pass.visitSentence before sentence =
      (sentenceInstances before sentence).foldl Pass.take pass := by
  induction sentence generalizing pass before with
  | nil => rfl
  | cons current behind ih =>
      rw [Pass.visitSentence, ih, sentenceInstances]
      cases h : current.unit.ambiguous with
      | true => rfl
      | false => rw [visit_of_not_ambiguous pass before behind h]; rfl

/-- A pass over some instances. -/
def passOver (model : Model α) (instances : List Instance) : Pass α :=
  instances.foldl Pass.take (start model)

/-- A pass is taking all instances of the corpus, and finishing. -/
lemma iterate_eq (corpus : Corpus) (model : Model α) :
    iterate corpus model
      = (passOver model (instancesOf corpus), (passOver model (instancesOf corpus)).finish) := by
  have hpass : corpus.foldl (fun pass sentence => pass.visitSentence [] sentence) (start model)
      = passOver model (instancesOf corpus) := by
    rw [passOver, instancesOf, List.foldl_flatMap]
    simp only [visitSentence_eq]
  rw [iterate, hpass]

/-- The instances of a sentence are its ambiguous examples, each between the others. -/
lemma mem_sentenceInstances {inst : Instance} {before : List Example} {sentence : Sentence} :
    inst ∈ sentenceInstances before sentence ↔ inst.current.unit.ambiguous = true ∧
      ∃ front, inst.before = front.reverse ++ before ∧
        sentence = front ++ inst.current :: inst.behind := by
  induction sentence generalizing before with
  | nil => simp [sentenceInstances]
  | cons current behind ih =>
      rw [sentenceInstances]
      constructor
      · intro h
        split at h
        · rename_i hambiguous
          rcases List.mem_cons.1 h with rfl | h
          · exact ⟨hambiguous, [], rfl, rfl⟩
          · obtain ⟨hinst, front, hbefore, rfl⟩ := ih.1 h
            exact ⟨hinst, current :: front, by simp [hbefore], rfl⟩
        · obtain ⟨hinst, front, hbefore, rfl⟩ := ih.1 h
          exact ⟨hinst, current :: front, by simp [hbefore], rfl⟩
      · rintro ⟨hinst, front, hbefore, hsentence⟩
        cases front with
        | nil =>
            obtain ⟨rfl, rfl⟩ := List.cons.inj hsentence
            obtain rfl : inst.before = before := hbefore
            rw [if_pos hinst]
            exact List.mem_cons_self
        | cons first front =>
            obtain ⟨rfl, rfl⟩ := List.cons.inj hsentence
            have htail := ih.2 ⟨hinst, front, by simpa using hbefore, rfl⟩
            split
            · exact List.mem_cons_of_mem _ htail
            · exact htail

/-- All instances are of units with a choice. -/
lemma ambiguous_of_mem_instancesOf {inst : Instance} {corpus : Corpus}
    (h : inst ∈ instancesOf corpus) : inst.current.unit.ambiguous = true := by
  obtain ⟨sentence, -, h⟩ := List.mem_flatMap.1 h
  exact (mem_sentenceInstances.1 h).1

/-- Taking an instance counts it and makes its changes. -/
lemma take_eq (pass : Pass α) {inst : Instance} (h : inst.current.unit.ambiguous = true) :
    ∃ mistakes, pass.take inst = Pass.updateAll
      { pass with instances := pass.instances + 1, mistakes } (inst.changes pass.model) := by
  cases hupdates : instanceUpdates pass.model inst.before inst.current inst.behind with
  | none =>
      refine ⟨pass.mistakes, ?_⟩
      simp [Pass.take, Pass.visit, h, Instance.changes, hupdates, Pass.updateAll]
  | some changes =>
      refine ⟨pass.mistakes + 1, ?_⟩
      simp [Pass.take, Pass.visit, h, Instance.changes, hupdates, Pass.updateAll]

/-- **What one instance does.**  Each weight is in force for one instance more, and then the changes
of the instance are made. -/
lemma take_spec {pass : Pass α} (h : pass.Sound) {inst : Instance}
    (hambiguous : inst.current.unit.ambiguous = true) :
    (pass.take inst).Sound ∧
      (pass.take inst).instances = pass.instances + 1 ∧
      (pass.take inst).model = correct pass.model inst ∧
      (∀ pair, (pass.take inst).accrued pair
        = pass.accrued pair + pass.model.weights.get pair) ∧
      ∀ pair, 0 < ((pass.take inst).account pair).changed ↔
        pair ∈ (inst.changes pass.model).map Prod.fst ∨ 0 < (pass.account pair).changed := by
  obtain ⟨mistakes, htake⟩ := take_eq pass hambiguous
  obtain ⟨hsound, hinstances, hmodel, haccrued, hchanged⟩ :=
    updateAll_spec (h.next mistakes) (inst.changes pass.model)
  rw [htake]
  refine ⟨hsound, hinstances, hmodel, fun pair => ?_, fun pair => ?_⟩
  · rw [haccrued]
    show (pass.account pair).total + pass.model.weights.get pair
        * ((pass.instances + 1 - (pass.account pair).changed : Nat) : α)
      = (pass.account pair).total + pass.model.weights.get pair
        * ((pass.instances - (pass.account pair).changed : Nat) : α) + pass.model.weights.get pair
    rw [Nat.succ_sub (h.changed_le pair), Nat.cast_succ]
    ring
  · rw [hchanged]
    split
    · rename_i hmem
      exact ⟨fun _ => Or.inl hmem, fun _ => Nat.succ_pos _⟩
    · rename_i hmem
      exact ⟨Or.inr, fun hor => hor.resolve_left hmem⟩

/-- All that some instances do. -/
lemma foldl_take_spec {pass : Pass α} (h : pass.Sound) {instances : List Instance}
    (hambiguous : ∀ inst ∈ instances, inst.current.unit.ambiguous = true) :
    (instances.foldl Pass.take pass).Sound ∧
      (instances.foldl Pass.take pass).instances = pass.instances + instances.length ∧
      (∀ pair, (instances.foldl Pass.take pass).accrued pair = pass.accrued pair
        + ((inForce pass.model instances).map (·.weights.get pair)).sum) ∧
      ∀ pair, 0 < ((instances.foldl Pass.take pass).account pair).changed ↔
        Changes pass.model pair instances ∨ 0 < (pass.account pair).changed := by
  induction instances generalizing pass with
  | nil => exact ⟨h, rfl, fun pair => by simp [inForce], fun pair => by simp [Changes]⟩
  | cons inst instances ih =>
      obtain ⟨hinst, hrest⟩ := List.forall_mem_cons.1 hambiguous
      obtain ⟨hsound, hinstances, hmodel, haccrued, hchanged⟩ := take_spec h hinst
      obtain ⟨hsound', hinstances', haccrued', hchanged'⟩ := ih hsound hrest
      rw [List.foldl_cons]
      refine ⟨hsound', ?_, fun pair => ?_, fun pair => ?_⟩
      · rw [hinstances', hinstances, List.length_cons]
        omega
      · rw [haccrued', haccrued, hmodel, inForce, List.map_cons, List.sum_cons, add_assoc]
      · rw [hchanged', hchanged, hmodel, Changes]
        tauto

/-- Weights and accounts are in order after any instances. -/
lemma sound_passOver {model : Model α} (h : model.weights.Ordered) {instances : List Instance}
    (hambiguous : ∀ inst ∈ instances, inst.current.unit.ambiguous = true) :
    (passOver model instances).Sound :=
  (foldl_take_spec (start_spec h).1 hambiguous).1

/-- **Lazy totals are eager ones.**  After any instances an account, brought up to date, comes to
the snapshot of its weight and the sum of the values that were in force so far. -/
lemma accrued_passOver {model : Model α} (h : model.weights.Ordered) {instances : List Instance}
    (hambiguous : ∀ inst ∈ instances, inst.current.unit.ambiguous = true) (pair : Pair) :
    (passOver model instances).accrued pair = snapshot model pair
      + ((inForce model instances).map (·.weights.get pair)).sum := by
  obtain ⟨hsound, haccount⟩ := start_spec h
  obtain ⟨-, -, haccrued, -⟩ := foldl_take_spec hsound hambiguous
  have hstart : (start model).accrued pair = snapshot model pair := by
    rw [Pass.accrued, haccount]
    show snapshot model pair + _ * ((0 - 0 : Nat) : α) = snapshot model pair
    rw [Nat.sub_self, Nat.cast_zero, mul_zero, add_zero]
  rw [passOver, haccrued, hstart]
  rfl

/-- One value is in force for each instance. -/
lemma length_inForce (model : Model α) (instances : List Instance) :
    (inForce model instances).length = instances.length := by
  induction instances generalizing model with
  | nil => rfl
  | cons inst instances ih => rw [inForce, List.length_cons, List.length_cons, ih]

/-- Without instances nothing changes. -/
lemma ne_nil_of_changes {model : Model α} {pair : Pair} {instances : List Instance}
    (h : Changes model pair instances) : instances ≠ [] := by
  rintro rfl
  exact h

variable [IsStrictOrderedRing α]

/-- **What a pass makes of a changed weight.**  It is the sum of the values that were in force while
the instances were scored, and of the snapshot of the weight once more, over the number of
instances.  So it is the mean of those values just when the snapshot is 0.  In a table that only has
locations in order the snapshot is the weight before the pass. -/
theorem weight_iterate (model : Model α) (h : model.weights.Ordered) (corpus : Corpus) (pair : Pair)
    (hchanges : Changes model pair (instancesOf corpus)) :
    let values := (inForce model (instancesOf corpus)).map (·.weights.get pair)
    let mean := values.sum / (values.length : α)
    let weight := (iterate corpus model).2.weights.get pair
    (iterate corpus model).1.instances = values.length ∧
      weight = (snapshot model pair + values.sum) / (values.length : α) ∧
      (weight = mean ↔ snapshot model pair = 0) ∧
      (model.weights.Canonical → snapshot model pair = model.weights.get pair) := by
  intro values mean weight
  obtain ⟨hsound, haccount⟩ := start_spec h
  have hambiguous : ∀ inst ∈ instancesOf corpus, inst.current.unit.ambiguous = true :=
    fun inst hinst => ambiguous_of_mem_instancesOf hinst
  obtain ⟨hend, hinstances, -, hchanged⟩ := foldl_take_spec hsound hambiguous
  have hsound' : (passOver model (instancesOf corpus)).Sound := hend
  have hlength : values.length = (instancesOf corpus).length := by
    rw [List.length_map, length_inForce]
  have hcount : (iterate corpus model).1.instances = values.length := by
    rw [iterate_eq, hlength]
    exact hinstances.trans (Nat.zero_add _)
  have hweight : weight = (snapshot model pair + values.sum) / (values.length : α) := by
    have hpositive : 0 < ((passOver model (instancesOf corpus)).account pair).changed :=
      (hchanged pair).2 (Or.inl hchanges)
    have hfinish := get_finish hsound' pair
    rw [if_pos hpositive] at hfinish
    show (iterate corpus model).2.weights.get pair = _
    rw [← hcount, iterate_eq, ← accrued_passOver h hambiguous]
    exact hfinish
  refine ⟨hcount, hweight, ?_, fun hcanonical => snapshot_of_canonical h hcanonical pair⟩
  have hne : (values.length : α) ≠ 0 := by
    rw [hlength, Nat.cast_ne_zero]
    exact fun hzero => ne_nil_of_changes hchanges (List.length_eq_zero_iff.1 hzero)
  rw [hweight, div_left_inj' hne]
  exact add_eq_right

/-- A model with a feature for each of the targets `a` and `b`, the second one with weight 3. -/
def twoForms : Model ℚ :=
  Model.setWeight (.unary ⟨0, 2⟩) 3 <| Model.setWeight (.unary ⟨0, 1⟩) 0 <| Model.rebuildMatcher
    { features := [{ name := [] }, { name := ['A'], patterns := [['t', 'l', '/', 'a']] },
        { name := ['B'], patterns := [['t', 'l', '/', 'b']] }] }

/-- A corpus of one unit, in which `a` is right. -/
def oneUnit : Corpus :=
  [[⟨⟨[], some ⟨[.plain 'x'], [0]⟩, [⟨[.plain 'a'], [0, 1]⟩, ⟨[.plain 'b'], [0, 2]⟩]⟩, 0⟩]]

/-- The weight 3 is in force for the only instance, which lowers it; it is counted twice. -/
theorem weight_iterate_two_forms :
    let pair := Pair.unary ⟨0, 2⟩
    Changes twoForms pair (instancesOf oneUnit) ∧
      (iterate oneUnit twoForms).2.weights.get pair = (3 + 3) / 1 := by
  intro pair
  have hordered : twoForms.weights.Ordered :=
    WeightTable.ordered_alter (WeightTable.ordered_alter WeightTable.ordered_empty _ _) _ _
  have hchanges : Changes twoForms pair (instancesOf oneUnit) := Or.inl (by decide +kernel)
  obtain ⟨-, hweight, -⟩ := weight_iterate twoForms hordered oneUnit pair hchanges
  have hsnapshot : snapshot twoForms pair = 3 := by decide +kernel
  have hvalues : (inForce twoForms (instancesOf oneUnit)).map (·.weights.get pair) = [3] := by
    decide +kernel
  rw [hsnapshot, hvalues] at hweight
  exact ⟨hchanges, by simpa using hweight⟩

/-- **A weight need not become its mean**, nor stay between its values: here 3 is the only value,
and 6 is stored. -/
theorem weight_not_mean :
    ∃ (model : Model ℚ) (raw gold : Text) (corpus : Corpus) (pair : Pair),
      Corpus.load model raw.utf8 gold.utf8 = .ok corpus ∧
        (iterate corpus model).1.instances = 1 ∧
        Changes model pair (instancesOf corpus) ∧
        (inForce model (instancesOf corpus)).map (·.weights.get pair) = [3] ∧
        (iterate corpus model).2.weights.get pair = 6 := by
  refine ⟨twoForms, "^x/a/b$".toList, "^x/a$".toList, oneUnit, .unary ⟨0, 2⟩, ?_, ?_, ?_, ?_, ?_⟩
  · decide +kernel
  · decide +kernel
  · exact Or.inl (by decide +kernel)
  · decide +kernel
  · decide +kernel

end LexicalSelection.Perceptron
