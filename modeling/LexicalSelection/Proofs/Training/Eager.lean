import LexicalSelection.Proofs.Model.Scoring
import LexicalSelection.Proofs.Training.Step

/-!
# Lazy totals are eager ones

A pass writes down what a weight has come to only when it changes the weight.  The plain way to do
it is to add up all weights after each instance.  In a training that begins with the model of a rule
file both come to the same after each instance of each pass, whether a weight changes in all or in
none.

* `Tally` — the plain perceptron, with totals to which each weight is added after each instance.
* `tally_foldl` — what its totals are.
* `stored_account` — a pair with a weight has an account at all times.
* **`accounts_eq_eager_totals`** — what the accounts of a pass are, instance by instance.
-/

namespace LexicalSelection.Perceptron

variable {α : Type} [Field α] {model : Model α} {pass : Pass α} {pair : Pair} {inst : Instance}
  {instances : List Instance}

/-! ## Totals that are kept eagerly -/

/-- A pass of the plain perceptron, in which each weight is added to its total after each
instance. -/
structure Tally (α : Type) where
  /-- The model with the weights in force. -/
  model : Model α
  /-- The totals of the weights. -/
  totals : Pair → α

/-- Totals begin with the weights. -/
def Tally.start (model : Model α) : Tally α := { model, totals := model.weights.get }

/-- The totals after one instance: the weights that it was scored with are added. -/
def Tally.take [LinearOrder α] (tally : Tally α) (inst : Instance) : Tally α :=
  { model := correct tally.model inst
    totals := fun pair => tally.totals pair + tally.model.weights.get pair }

/-- Each instance adds to the totals the weights that are in force for it. -/
lemma tally_foldl [LinearOrder α] (tally : Tally α) (instances : List Instance) :
    (instances.foldl Tally.take tally).model = instances.foldl correct tally.model ∧
      ∀ pair, (instances.foldl Tally.take tally).totals pair
        = tally.totals pair + ((inForce tally.model instances).map (·.weights.get pair)).sum := by
  induction instances generalizing tally with
  | nil => exact ⟨rfl, fun pair => by simp [inForce]⟩
  | cons inst instances ih =>
      obtain ⟨hmodel, htotals⟩ := ih (tally.take inst)
      refine ⟨hmodel, fun pair => ?_⟩
      rw [List.foldl_cons, htotals, inForce, List.map_cons, List.sum_cons, ← add_assoc]
      rfl

/-! ## Accounts of the pairs with a weight -/

/-- A change keeps all accounts that there are. -/
lemma stored_account_update (h : pass.Sound)
    (hpair : (Ascending.find? pair pass.accounts).isSome = true) (pair' : Pair) (delta : α) :
    (Ascending.find? pair (pass.update pair' delta).accounts).isSome = true := by
  rw [Pass.update, Ascending.find?_alter h.accounts]
  split
  · rfl
  · exact hpair

lemma stored_account_updateAll (h : pass.Sound)
    (hpair : (Ascending.find? pair pass.accounts).isSome = true) (changes : List (Pair × α)) :
    (Ascending.find? pair (pass.updateAll changes).accounts).isSome = true := by
  induction changes generalizing pass with
  | nil => exact hpair
  | cons change changes ih =>
      exact ih (sound_update h change.1 change.2) (stored_account_update h hpair change.1 change.2)

omit [Field α] in
/-- When a pass over the weights of a rule file begins, each pair with a weight has an account. -/
lemma stored_account_start (h : model.weights.Ordered) (hcanonical : model.weights.Canonical)
    (hpair : (model.weights.find? pair.first pair.second).isSome = true) :
    (Ascending.find? pair (start model).accounts).isSome = true := by
  obtain ⟨weight, hweight⟩ := Option.isSome_iff_exists.1 hpair
  have hmem := (WeightTable.mem_entries_of_canonical h hcanonical pair weight).2 hweight
  have hfilter : (pair, weight) ∈ model.weights.entries.filter (·.1 = pair) :=
    List.mem_filter.2 ⟨hmem, by simp⟩
  obtain ⟨-, hfind⟩ := find?_foldl_put model.weights.entries
    (List.Pairwise.nil : Ascending.StrictKeys []) pair
  rw [start, hfind]
  cases hlast : (model.weights.entries.filter (·.1 = pair)).getLast? with
  | some entry => rfl
  | none =>
      rw [List.getLast?_eq_none_iff.1 hlast] at hfilter
      cases hfilter

/-! ## Trainings -/

omit [Field α] in
/-- The model of a rule file has a table in order, with numbers of any kind for its weights. -/
lemma ordered_mapWeights_ofRuleBytes {rules : Bytes} {source : Model Binary64}
    (h : Model.ofRuleBytes rules = .ok source) (value : Binary64 → α) :
    (source.mapWeights value).weights.Ordered ∧ (source.mapWeights value).weights.Canonical := by
  obtain ⟨text, rfl⟩ := Model.exists_text_of_ofRuleBytes h
  have hsource := Model.consistent_ofRules text
  exact ⟨WeightTable.ordered_mapWeights hsource.ordered value,
    WeightTable.canonical_mapWeights hsource.canonical value⟩

omit [Field α] in
/-- A table with weights for the same pairs is in order too. -/
lemma Reweighted.canonical {model' : Model α} (h : Reweighted model model')
    (hcanonical : model.weights.Canonical) : model'.weights.Canonical := by
  intro a b weight hweight
  -- a pair that has a weight had one before
  have hstored := h.stored a b
  rw [hweight] at hstored
  obtain ⟨weight', hweight'⟩ := Option.isSome_iff_exists.1 hstored.symm
  exact hcanonical a b weight' hweight'

section Instances

variable [LinearOrder α]

lemma stored_account_foldl (h : pass.Sound)
    (hpair : (Ascending.find? pair pass.accounts).isSome = true)
    (hambiguous : ∀ inst ∈ instances, inst.current.unit.ambiguous = true) :
    (Ascending.find? pair (instances.foldl Pass.take pass).accounts).isSome = true := by
  induction instances generalizing pass with
  | nil => exact hpair
  | cons inst instances ih =>
      obtain ⟨hinst, hrest⟩ := List.forall_mem_cons.1 hambiguous
      obtain ⟨mistakes, htake⟩ := take_eq pass hinst
      refine ih (take_spec h hinst).1 ?_ hrest
      rw [htake]
      exact stored_account_updateAll (h.next mistakes) hpair _

/-- **A pair with a weight has an account** at all times of a pass. -/
lemma stored_account (h : model.weights.Ordered) (hcanonical : model.weights.Canonical)
    (hpair : (model.weights.find? pair.first pair.second).isSome = true)
    (hambiguous : ∀ inst ∈ instances, inst.current.unit.ambiguous = true) :
    (Ascending.find? pair (passOver model instances).accounts).isSome = true :=
  stored_account_foldl (start_spec h).1 (stored_account_start h hcanonical hpair) hambiguous

/-- What the account of a pair with a weight comes to when it is brought up to date. -/
lemma exists_account (h : model.weights.Ordered) (hcanonical : model.weights.Canonical)
    (hambiguous : ∀ inst ∈ instances, inst.current.unit.ambiguous = true)
    (hpair : (model.weights.find? pair.first pair.second).isSome = true) :
    let pass := passOver model instances
    ∃ account, Ascending.find? pair pass.accounts = some account ∧
      account.changed ≤ pass.instances ∧
      account.total + pass.model.weights.get pair * ((pass.instances - account.changed : Nat) : α)
        = model.weights.get pair + ((inForce model instances).map (·.weights.get pair)).sum := by
  intro pass
  obtain ⟨account, haccount⟩ :=
    Option.isSome_iff_exists.1 (stored_account h hcanonical hpair hambiguous)
  have hfound : pass.account pair = account := by
    rw [Pass.account, haccount, Option.getD_some]
  have hchanged := (sound_passOver h hambiguous).changed_le pair
  have haccrued := accrued_passOver h hambiguous pair
  rw [snapshot_of_canonical h hcanonical, Pass.accrued] at haccrued
  exact ⟨account, haccount, hfound ▸ hchanged, hfound ▸ haccrued⟩

/-- **Lazy totals are eager ones.**  A training begins with the model of a rule file, whose weights
are numbers of any field.  In each of its passes, after any of the instances, each pair with a
weight has an account.  What it comes to with the weight that the pair has now, once for each
instance since the weight changed, is the weight before the pass and the sum of the weights that
were in force for the instances so far.  Totals that are kept eagerly come to the same. -/
theorem accounts_eq_eager_totals {rules : Bytes} {source : Model Binary64}
    (hread : Model.ofRuleBytes rules = .ok source) (value : Binary64 → α) (corpus : Corpus)
    (passes : Nat) :
    let model := (train corpus passes (source.mapWeights value)).2
    let later := (train corpus (passes + 1) (source.mapWeights value)).2
    iterate corpus model = (passOver model (instancesOf corpus), later) ∧
    (∀ a b, (model.weights.find? a b).isSome = (source.weights.find? a b).isSome) ∧
    ∀ front rest, instancesOf corpus = front ++ rest →
      let pass := passOver model front
      let eager := front.foldl Tally.take (Tally.start model)
      pass.instances = front.length ∧ pass.model = eager.model ∧
      ∀ pair, (model.weights.find? pair.first pair.second).isSome = true →
        let total := model.weights.get pair + ((inForce model front).map (·.weights.get pair)).sum
        (∃ account, Ascending.find? pair pass.accounts = some account ∧
          account.changed ≤ pass.instances ∧
          account.total
              + pass.model.weights.get pair * ((pass.instances - account.changed : Nat) : α)
            = total) ∧
        eager.totals pair = total := by
  intro model later
  obtain ⟨hsource, hcanonical⟩ := ordered_mapWeights_ofRuleBytes hread value
  have htrained := reweighted_train hsource corpus passes
  have hmodel : model.weights.Ordered := htrained.ordered
  have hcanonical : model.weights.Canonical := htrained.canonical hcanonical
  refine ⟨?_, fun a b => ?_, fun front rest hsplit => ?_⟩
  · have hlater : later = (iterate corpus model).2 := model_trainFrom_succ corpus passes {} _
    rw [hlater, iterate_eq]
  · rw [htrained.stored, Model.mapWeights, WeightTable.find?_mapWeights, Option.isSome_map]
  · have hambiguous : ∀ inst ∈ front, inst.current.unit.ambiguous = true := fun inst hinst =>
      ambiguous_of_mem_instancesOf (hsplit ▸ List.mem_append_left rest hinst)
    obtain ⟨hstart, -⟩ := start_spec hmodel
    obtain ⟨-, hinstances, -⟩ := foldl_take_spec hstart hambiguous
    obtain ⟨heager, htotals⟩ := tally_foldl (Tally.start model) front
    exact ⟨hinstances.trans (Nat.zero_add _),
      (model_foldl_take hstart hambiguous).trans heager.symm, fun pair hpair =>
        ⟨exists_account hmodel hcanonical hambiguous hpair, htotals pair⟩⟩

end Instances

/-- The same unit comes three times.  It lowers the weight 3 twice and then leaves it alone, so the
account has to be brought up to date for the last instance. -/
theorem accounts_eq_eager_totals_three_units :
    let rules : Text := "P A tl/a\nP B tl/b\nW 0:A 0\nW 0:B 3\n".toList
    let value : Binary64 → ℚ := fun weight => if weight = ⟨0x4008000000000000⟩ then 3 else 0
    let model := (Model.ofRules rules).mapWeights value
    let corpus := oneUnit ++ oneUnit ++ oneUnit
    let pair := Pair.unary ⟨0, 2⟩
    Model.ofRuleBytes rules.utf8 = .ok (.ofRules rules) ∧
      (passOver model (instancesOf corpus)).instances = 3 ∧
      ∃ account,
        Ascending.find? pair (passOver model (instancesOf corpus)).accounts = some account ∧
        account.changed = 2 ∧
        account.total + (passOver model (instancesOf corpus)).model.weights.get pair
          * ((3 - account.changed : Nat) : ℚ) = 3 + (3 + (2 + 1)) := by
  intro rules value model corpus pair
  have hbytes : Model.ofRuleBytes rules.utf8 = .ok (.ofRules rules) := by
    rw [Model.ofRuleBytes, Utf8.decode?_utf8]
  have htrain : (train corpus 0 model).2 = model := rfl
  obtain ⟨-, -, haccounts⟩ := accounts_eq_eager_totals hbytes value corpus 0
  rw [htrain] at haccounts
  obtain ⟨-, -, hpairs⟩ := haccounts _ [] (List.append_nil _).symm
  obtain ⟨⟨account, haccount, -, htotal⟩, -⟩ := hpairs pair (by decide +kernel)
  have hinstances : (passOver model (instancesOf corpus)).instances = 3 := by decide +kernel
  have hlast : (Ascending.find? pair (passOver model (instancesOf corpus)).accounts).map
      Account.changed = some 2 := by decide +kernel
  have hchanged : account.changed = 2 := by
    rw [haccount] at hlast
    exact Option.some.inj hlast
  have hstart : model.weights.get pair = 3 := by decide +kernel
  have hvalues : (inForce model (instancesOf corpus)).map (·.weights.get pair) = [3, 2, 1] := by
    decide +kernel
  refine ⟨hbytes, hinstances, account, haccount, hchanged, ?_⟩
  rw [hinstances, hvalues] at htotal
  rw [htotal, hstart]
  norm_num

end LexicalSelection.Perceptron
