import LexicalSelection.Proofs.Training.Averaging

/-!
# Passes without mistakes

A pass that counts no mistakes has found the right target best for each instance.  So it has
corrected nothing and charged no account, and the model stays as it was.

* `IsFirstMax` — the first of the largest numbers of a list.
* **`isFirstMax_indexOfMax`** — it is what the trainer chooses.
* `Instance.Right` — the right target of an instance comes out best.
* **`iterate_of_no_mistakes`** — after a pass without mistakes every instance is right, and the
  model is the same.
-/

namespace LexicalSelection.Perceptron

/-! ## The first of the largest -/

section FirstMax

variable {α : Type} [LinearOrder α] {done : List α} {place : Nat} {best : α}

/-- A number of the list is at this place; no other one is larger, and those before it are
smaller. -/
structure IsFirstMax (xs : List α) (place : Nat) (best : α) : Prop where
  here : xs[place]? = some best
  le : ∀ x ∈ xs, x ≤ best
  lt : ∀ index < place, ∀ x, xs[index]? = some x → x < best

lemma IsFirstMax.lt_length (h : IsFirstMax done place best) : place < done.length :=
  (List.getElem?_eq_some_iff.1 h.here).1

/-- No list has two of them. -/
lemma IsFirstMax.unique {place' : Nat} {best' : α} (h : IsFirstMax done place best)
    (h' : IsFirstMax done place' best') : place = place' := by
  have hle : best' ≤ best := h.le best' (List.mem_of_getElem? h'.here)
  have hle' : best ≤ best' := h'.le best (List.mem_of_getElem? h.here)
  rcases lt_trichotomy place place' with hlt | heq | hlt
  · exact absurd (h'.lt place hlt best h.here) hle.not_gt
  · exact heq
  · exact absurd (h.lt place' hlt best' h'.here) hle'.not_gt

/-- A larger number that comes next takes the place. -/
lemma IsFirstMax.concat_of_lt {x : α} (h : IsFirstMax done place best) (hlt : best < x) :
    IsFirstMax (done ++ [x]) done.length x where
  here := List.getElem?_concat_length
  le y hy := by
    rcases List.mem_append.1 hy with hy | hy
    · exact (h.le y hy).trans hlt.le
    · exact (List.mem_singleton.1 hy).le
  lt index hindex y hy := by
    rw [List.getElem?_append_left hindex] at hy
    exact (h.le y (List.mem_of_getElem? hy)).trans_lt hlt

lemma IsFirstMax.concat_of_le {x : α} (h : IsFirstMax done place best) (hle : x ≤ best) :
    IsFirstMax (done ++ [x]) place best where
  here := by rw [List.getElem?_append_left h.lt_length, h.here]
  le y hy := by
    rcases List.mem_append.1 hy with hy | hy
    · exact h.le y hy
    · exact (List.mem_singleton.1 hy).trans_le hle
  lt index hindex y hy := by
    rw [List.getElem?_append_left (hindex.trans h.lt_length)] at hy
    exact h.lt index hindex y hy

/-- Going on with a list, the first of the largest so far is kept or replaced by a larger one. -/
lemma isFirstMax_firstMax (h : IsFirstMax done place best) (rest : List α) :
    ∃ best', IsFirstMax (done ++ rest) (firstMax place best done.length rest) best' := by
  induction rest generalizing done place best with
  | nil => exact ⟨best, by simpa [firstMax] using h⟩
  | cons x rest ih =>
      rw [firstMax]
      split
      · rename_i hlt
        simpa using ih (h.concat_of_lt hlt)
      · rename_i hnot
        simpa using ih (h.concat_of_le (not_lt.1 hnot))

/-- **The trainer chooses the first of the largest numbers.** -/
lemma isFirstMax_indexOfMax {xs : List α} (h : xs ≠ []) :
    ∃ best, IsFirstMax xs (indexOfMax xs) best := by
  obtain ⟨x, rest, rfl⟩ := List.exists_cons_of_ne_nil h
  have hfirst : IsFirstMax [x] 0 x := ⟨rfl, by simp, by simp⟩
  exact isFirstMax_firstMax hfirst rest

end FirstMax

/-! ## Accounts without changes -/

variable {α : Type} {model : Model α} {pass : Pass α} {inst : Instance} {instances : List Instance}

/-- At the start of a pass no weight has changed. -/
lemma changed_start {entry : Pair × Account α} (h : entry ∈ (start model).accounts) :
    entry.2.changed = 0 := by
  obtain ⟨pair, account⟩ := entry
  obtain ⟨hstrict, hfind⟩ := find?_foldl_put model.weights.entries
    (List.Pairwise.nil : Ascending.StrictKeys []) pair
  have hfound : Ascending.find? pair (start model).accounts = some account :=
    (Ascending.find?_eq_some_iff hstrict).2 h
  rw [start, hfind] at hfound
  split at hfound
  · rw [← Option.some.inj hfound]
  · cases hfound

variable [Field α]

/-- Accounts without a change are settled without a change. -/
lemma foldl_settle_of_unchanged (count : Nat) {accounts : List (Pair × Account α)}
    (h : ∀ entry ∈ accounts, entry.2.changed = 0) (model : Model α) :
    accounts.foldl (settle count) model = model := by
  induction accounts with
  | nil => rfl
  | cons entry accounts ih =>
      obtain ⟨hentry, hrest⟩ := List.forall_mem_cons.1 h
      rw [List.foldl_cons, settle, hentry, if_neg (Nat.lt_irrefl 0), ih hrest]

lemma mistakes_updateAll (pass : Pass α) (changes : List (Pair × α)) :
    (pass.updateAll changes).mistakes = pass.mistakes := by
  induction changes generalizing pass with
  | nil => rfl
  | cons change changes ih => exact ih (pass.update change.1 change.2)

/-! ## Instances -/

variable [LinearOrder α]

/-- The right target comes out best. -/
def Instance.Right (model : Model α) (inst : Instance) : Prop :=
  instanceUpdates model inst.before inst.current inst.behind = none

omit [Field α] [LinearOrder α] in
lemma targets_ne_nil (h : inst.current.unit.ambiguous = true) :
    inst.current.unit.targets ≠ [] := by
  intro hnil
  simp [LexicalUnit.ambiguous, hnil] at h

/-- **The right target scores best**, and better than those before it. -/
lemma Instance.Right.isFirstMax (h : inst.Right model)
    (hambiguous : inst.current.unit.ambiguous = true) :
    ∃ best, IsFirstMax (inst.current.unit.targets.map fun target => model.weights.score
      (activeLocations model inst.before inst.current.unit inst.behind target))
        inst.current.gold best := by
  rw [Right, instanceUpdates] at h
  simp only [List.map_map] at h
  split at h
  · rename_i hgold
    rw [← hgold]
    exact isFirstMax_indexOfMax (by simpa using targets_ne_nil hambiguous)
  · cases h

/-! ## The pass -/

/-- An instance that is right is counted, and nothing else. -/
lemma take_of_right (h : inst.Right pass.model) (hambiguous : inst.current.unit.ambiguous = true) :
    pass.take inst = { pass with instances := pass.instances + 1 } := by
  rw [Instance.Right] at h
  simp [Pass.take, Pass.visit, hambiguous, h]

/-- An instance that is not right is counted as a mistake. -/
lemma mistakes_take_of_not_right (h : ¬ inst.Right pass.model)
    (hambiguous : inst.current.unit.ambiguous = true) :
    (pass.take inst).mistakes = pass.mistakes + 1 := by
  obtain ⟨changes, hchanges⟩ := Option.ne_none_iff_exists'.1 h
  simp only [Pass.take, Pass.visit, hambiguous, hchanges, if_true]
  exact mistakes_updateAll _ changes

/-- No mistake is taken back. -/
lemma mistakes_le_foldl (pass : Pass α)
    (hambiguous : ∀ inst ∈ instances, inst.current.unit.ambiguous = true) :
    pass.mistakes ≤ (instances.foldl Pass.take pass).mistakes := by
  induction instances generalizing pass with
  | nil => exact le_rfl
  | cons inst instances ih =>
      obtain ⟨hinst, hrest⟩ := List.forall_mem_cons.1 hambiguous
      refine le_trans ?_ (ih (pass.take inst) hrest)
      by_cases hright : inst.Right pass.model
      · rw [take_of_right hright hinst]
      · rw [mistakes_take_of_not_right hright hinst]
        exact Nat.le_succ _

/-- Instances without mistakes only count. -/
lemma foldl_take_of_no_mistakes {pass : Pass α}
    (hambiguous : ∀ inst ∈ instances, inst.current.unit.ambiguous = true)
    (h : (instances.foldl Pass.take pass).mistakes = pass.mistakes) :
    (∀ inst ∈ instances, inst.Right pass.model) ∧
      instances.foldl Pass.take pass
        = { pass with instances := pass.instances + instances.length } := by
  induction instances generalizing pass with
  | nil => exact ⟨by simp, rfl⟩
  | cons inst instances ih =>
      obtain ⟨hinst, hrest⟩ := List.forall_mem_cons.1 hambiguous
      rw [List.foldl_cons] at h ⊢
      have hright : inst.Right pass.model := by
        by_contra hwrong
        have hle := mistakes_le_foldl (pass.take inst) hrest
        rw [h, mistakes_take_of_not_right hwrong hinst] at hle
        exact Nat.not_succ_le_self _ hle
      rw [take_of_right hright hinst] at h ⊢
      obtain ⟨hothers, hpass⟩ := ih hrest h
      refine ⟨List.forall_mem_cons.2 ⟨hright, hothers⟩, ?_⟩
      rw [hpass, List.length_cons, Nat.add_right_comm, Nat.add_assoc]

/-- **A pass without mistakes changes nothing**, and it has found every instance right. -/
lemma iterate_of_no_mistakes {corpus : Corpus} (h : (iterate corpus model).1.mistakes = 0) :
    (iterate corpus model).2 = model ∧ ∀ inst ∈ instancesOf corpus, inst.Right model := by
  rw [iterate_eq] at h ⊢
  have hambiguous : ∀ inst ∈ instancesOf corpus, inst.current.unit.ambiguous = true :=
    fun inst hinst => ambiguous_of_mem_instancesOf hinst
  obtain ⟨hright, hpass⟩ := foldl_take_of_no_mistakes hambiguous h
  refine ⟨?_, hright⟩
  rw [passOver, hpass]
  exact foldl_settle_of_unchanged _ (fun entry hentry => changed_start hentry) model

end LexicalSelection.Perceptron
