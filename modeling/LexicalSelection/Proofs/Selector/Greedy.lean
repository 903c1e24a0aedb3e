import LexicalSelection.Proofs.Selector.Optimum

/-!
# A beam of one

When one hypothesis is kept, each unit is decided at once: the only hypothesis is continued with the
target that scores best, the first one of several.  The decision is written later, but it is not
changed any more.

* **`nextLayer_eq_singleton`** — the only hypothesis for a unit chooses the first of the best
  targets.
* **`decisions_step`** — a step adds its choice to the decisions, written or not, and changes no
  other.
* `lone_of_run` — there is one hypothesis to continue, always.
-/

namespace LexicalSelection

/-- A hypothesis that costs less comes first, and of equal ones that with the earlier target. -/
lemma Hypothesis.compare_eq_lt {α : Type} [LinearOrder α] {a b : Hypothesis α}
    (hle : a.cost ≤ b.cost)
    (hlt : b.reading ≤ a.reading → a.cost < b.cost) : compare a b = .lt := by
  change (compare a.cost b.cost).then
    ((compare a.reading b.reading).then (compare a.previous b.previous)) = .lt
  rcases hle.lt_or_eq with hcost | hcost
  · rw [compare_lt_iff_lt.2 hcost]
    rfl
  · have hreading : a.reading < b.reading :=
      lt_of_not_ge fun hge => (hlt hge).ne hcost
    rw [compare_eq_iff_eq.2 hcost, compare_lt_iff_lt.2 hreading]
    rfl

namespace Window

variable {α : Type} {model : Model α} {window : Window α} {unit : LexicalUnit} {input : Input}
  {history : List Decision} {ahead : List LexicalUnit} {reading : Nat}

section Steps

variable [Zero α] [Add α] [Sub α] [Ord α]

/-- A step adds its decision for the current unit to those that were made before, along the first
hypothesis, and changes none of them. -/
lemma decisions_step (hahead : window.ahead = unit :: ahead) :
    chain 0 (window.step model).1.pending (window.step model).1.layers
        ++ (window.decided model ++ history)
      = chain 0 (unit :: window.pending) (window.nextLayer model unit :: window.layers)
        ++ history := by
  simp only [step, decided, hahead]
  split
  · rfl
  · rfl

lemma length_nextLayer (hbeam : model.beam = 1) (h : window.layers.headD [] ≠ []) :
    (window.nextLayer model unit).length = 1 := by
  have hall := List.length_pos_iff.2 (allHypotheses_ne_nil model unit h)
  rw [nextLayer, hbeam, if_neg Nat.one_ne_zero, List.length_take]
  omega

/-- With a beam of one there is one hypothesis to continue. -/
lemma lone_of_run (hbeam : model.beam = 1) (h : Run model history window input) :
    (window.layers.headD []).length = 1 := by
  induction h with
  | start => rfl
  | @step _ _ window' _ _ hrun hrefill _ ih =>
      have hrefilled := refilled_refill (underway_of_run hrun) hrefill
      cases hahead : window'.ahead with
      | nil => simpa [step, hahead, hrefilled.layers_eq] using ih
      | cons unit ahead =>
          simp only [step, hahead]
          split
          · exact length_nextLayer hbeam hrefilled.underway.linked.headD_ne_nil
          · rfl
  | next hrun hrefill _ _ ih =>
      exact (refilled_refill (underway_of_run hrun) hrefill).layers_eq ▸ ih
  | broken hrun hrefill _ ih =>
      obtain ⟨units, -, -, rfl⟩ := grown_of_refill_error (underway_of_run hrun) hrefill
      exact ih

end Steps

variable [AddCommGroup α] [LinearOrder α] [IsOrderedAddMonoid α]

/-- **The only hypothesis for a unit chooses the first of the best targets**. -/
lemma nextLayer_eq_singleton (hbeam : model.beam = 1) (hlone : (window.layers.headD []).length = 1)
    (hreading : Decision.Valid (unit, reading))
    (hbest : ∀ other, Decision.Valid (unit, other) →
      model.weights.score (window.activeLocations model unit other 0)
          ≤ model.weights.score (window.activeLocations model unit reading 0) ∧
        (other < reading → model.weights.score (window.activeLocations model unit other 0)
          < model.weights.score (window.activeLocations model unit reading 0))) :
    ∃ cost, window.nextLayer model unit = [⟨cost, reading, 0⟩] := by
  obtain ⟨before, hlayer⟩ := List.length_eq_one_iff.1 hlone
  have hbefore : (window.layers.headD [])[0]? = some before := by rw [hlayer]; rfl
  refine ⟨before.cost - model.weights.score (window.activeLocations model unit reading 0), ?_⟩
  rw [nextLayer, hbeam, if_neg Nat.one_ne_zero]
  refine Ascending.Strict.take_one (Ascending.strict_ofList _)
    (mem_allHypotheses_of_valid hreading hbefore) fun other hother hne => ?_
  -- Another hypothesis continues the same one, so it has another target.
  obtain ⟨hvalid, hprevious⟩ := mem_allHypotheses hother
  obtain ⟨before', hbefore', hcost⟩ := cost_of_mem_allHypotheses hother
  rw [hlone, Nat.lt_one_iff] at hprevious
  rw [hprevious] at hbefore' hcost
  obtain rfl : before = before' := Option.some.inj (hbefore.symm.trans hbefore')
  obtain ⟨hle, hlt⟩ := hbest other.reading hvalid
  refine Hypothesis.compare_eq_lt (hcost ▸ sub_le_sub_left hle _) fun hge => ?_
  have hother_lt : other.reading < reading := by
    refine lt_of_le_of_ne hge fun heq => hne ?_
    obtain ⟨cost, choice, previous⟩ := other
    rw [Hypothesis.mk.injEq]
    exact ⟨hcost.trans (by rw [heq]), heq, hprevious⟩
  exact hcost ▸ sub_lt_sub_left (hlt hother_lt) _

end Window

end LexicalSelection
