import LexicalSelection.Proofs.Selector.Optimum
import Mathlib.Algebra.Order.BigOperators.Group.List
import Mathlib.Algebra.Order.Ring.Nat

/-!
# The first hypothesis

Hypotheses are kept in the order of what they cost, and the first one is written.  It gains as much
as any choice of targets for the units that wait, if the beam keeps a hypothesis for each such
choice, or if no choice is looked at from another unit.  Otherwise the beam may have dropped what
would have been best in the end.

* `Leads` — the first hypothesis gains as much as any choice for the units that wait.
* `CoversRuns` — a beam keeps a hypothesis for each choice for units that wait together.
* `Searched` — there is a hypothesis for each choice, and no more than there are choices.
* **`searched_of_run`** — so it is in every state when the beam covers the runs of units so far.
* **`leads_next`** — then the first hypothesis for the next unit leads; and so it does with any beam
  when nothing before a unit is looked at.
-/

namespace LexicalSelection

/-- The number of ways to choose targets for some units, each of which has targets. -/
def choiceCount (units : List LexicalUnit) : Nat := (units.map fun unit => unit.targets.length).prod

/-- The choices for units in a row are multiplied. -/
lemma choiceCount_append (units units' : List LexicalUnit) :
    choiceCount (units ++ units') = choiceCount units * choiceCount units' := by
  simp [choiceCount]

lemma choiceCount_reverse (units : List LexicalUnit) :
    choiceCount units.reverse = choiceCount units :=
  ((List.reverse_perm units).map _).prod_eq

/-- The beam keeps a hypothesis for each choice of targets for units that wait together. -/
def CoversRuns (beam : Nat) (units : List LexicalUnit) : Prop :=
  beam = 0 ∨ ∀ run, run <:+: units → (∀ unit ∈ run, unit.ambiguous = true) →
    choiceCount run ≤ beam

/-- A beam that covers all runs of units covers those of a part of them. -/
lemma CoversRuns.part {beam : Nat} {units units' : List LexicalUnit} (h : CoversRuns beam units)
    (hpart : units' <:+: units) : CoversRuns beam units' :=
  h.imp_right fun hcovers run hrun hambiguous => hcovers run (hrun.trans hpart) hambiguous

/-- So it is when there are no more choices for all the units that have several targets. -/
lemma coversRuns_of_choices {beam : Nat} {units : List LexicalUnit}
    (h : choiceCount (units.filter LexicalUnit.ambiguous) ≤ beam) : CoversRuns beam units := by
  refine Or.inr fun run hrun hambiguous => le_trans ?_ h
  have hsublist : run.Sublist (units.filter LexicalUnit.ambiguous) := by
    rw [← List.filter_eq_self.2 hambiguous]
    exact hrun.sublist.filter _
  refine (hsublist.map _).prod_le_prod' fun count hcount => ?_
  obtain ⟨unit, hunit, rfl⟩ := List.mem_map.1 hcount
  have htwo : 1 < unit.targets.length := by
    simpa [LexicalUnit.ambiguous] using (List.mem_filter.1 hunit).2
  exact htwo.le

namespace Window

variable {α : Type} {model : Model α} {window window' : Window α} {input rest : Input}
  {unit : LexicalUnit} {pending ahead units : List LexicalUnit} {layers : List (Layer α)}
  {history : List Decision}

/-! ## Leading -/

section Leads

variable [AddCommGroup α] [LinearOrder α]

/-- The first hypothesis gains as much as any choice for the units that wait. -/
def Leads (model : Model α) (history : List Decision) (pending : List LexicalUnit)
    (layers : List (Layer α)) (ahead : List LexicalUnit) : Prop :=
  ∀ others, Assigns pending others →
    model.gain others history ahead ≤ model.gain (chain 0 pending layers) history ahead

/-- When no unit waits there is only one choice. -/
lemma leads_nil (layers : List (Layer α)) (ahead : List LexicalUnit) :
    Leads model history [] layers ahead := by
  rintro others ⟨hunits, -⟩
  rw [List.map_eq_nil_iff.1 hunits, chain_nil]

/-- Units that come to be known behind those that wait change nothing. -/
lemma Leads.append (h : Leads model history pending layers ahead)
    (hsettled : ∀ unit ∈ pending.head?, model.Settled (unit :: ahead)) (more : List LexicalUnit) :
    Leads model history pending layers (ahead ++ more) := by
  intro others hothers
  have hlast : ∀ decision ∈ others.head?, model.Settled (decision.1 :: ahead) := by
    intro decision hdecision
    refine hsettled decision.1 ?_
    rw [← hothers.1, List.head?_map]
    exact Option.mem_map_of_mem Prod.fst hdecision
  rw [Model.gain_later _ hlast, Model.gain_later _ fun decision hdecision =>
    hsettled decision.1 (head?_chain hdecision)]
  exact h others hothers

variable [IsOrderedAddMonoid α]

/-- **When nothing before a unit is looked at, the first hypothesis goes on leading**, whatever the
beam drops: the best target behind the first hypothesis costs least of all. -/
lemma leads_nextLayer (hlookbehind : model.lookbehind = 0) (hlinked : window.IsLinked)
    (hpast : window.past = (history.take model.lookbehind).map keepChoice)
    (hahead : window.ahead = unit :: ahead)
    (hthrough : LexicalUnit.throughEnd (unit :: ahead) = unit :: ahead)
    (hcosts : Costed model history window.pending window.layers window.ahead)
    (h : Leads model history window.pending window.layers window.ahead) :
    Leads model history (unit :: window.pending) (window.nextLayer model unit :: window.layers)
      ahead := by
  rintro others ⟨hunits, hvalid⟩
  obtain ⟨⟨unit, reading⟩, others, rfl, rfl, hothers⟩ := List.map_eq_cons_iff.1 hunits
  obtain ⟨hreading, hvalid⟩ := List.forall_mem_cons.1 hvalid
  have hfirst := List.getElem?_eq_getElem hlinked.length_pos
  have hnext : window.nextLayer model unit ≠ [] := nextLayer_ne_nil hlinked.headD_ne_nil
  obtain ⟨best, dropped, hlayer⟩ := List.exists_cons_of_ne_nil hnext
  -- The best hypothesis costs no more than this target behind the first hypothesis.
  have hle := cost_head_le hlayer (mem_allHypotheses_of_valid hreading hfirst)
  have hbest := costed_nextLayer hlinked hpast hahead hthrough hcosts 0 0 best (by simp [hlayer])
  have hfirstCost := hcosts 0 0 _ hfirst
  rw [activeLocations_eq hlinked hlinked.length_pos hpast (hthrough.trans hahead.symm) hreading,
    hbest, hfirstCost, ← neg_add', neg_le_neg_iff] at hle
  simp only [List.drop_zero, List.take_zero, List.reverse_nil, List.nil_append, hahead] at hle
  -- Its evidence is the same behind the others.
  have hevidence : ∀ earlier earlier' : List Decision,
      model.evidence earlier (unit, reading) ahead =
        model.evidence earlier' (unit, reading) ahead := by
    intro earlier earlier'
    simp only [Model.evidence, Model.around, hlookbehind, List.take_zero]
  have hless := h others ⟨hothers, hvalid⟩
  rw [hahead] at hless
  rw [Model.gain, hevidence _ (chain 0 window.pending window.layers ++ history), add_comm]
  exact (add_le_add_left hless _).trans hle

end Leads

/-! ## All units of a run -/

section Stream

variable {more : List LexicalUnit}

/-- The units that have been decided, those in the window, and some more behind them. -/
def stream (history : List Decision) (window : Window α) (more : List LexicalUnit) :
    List LexicalUnit :=
  (history.map Prod.fst).reverse ++ (window.undecided ++ more)

/-- The units that wait and the next one follow each other in the stream. -/
lemma infix_stream (hahead : window.ahead = unit :: ahead) :
    window.pending.reverse ++ [unit] <:+: stream history window more :=
  ⟨(history.map Prod.fst).reverse, ahead ++ more, by simp [stream, undecided, hahead]⟩

variable [Zero α]

/-- Refilling takes units from the input and keeps the stream. -/
lemma Refilled.exists_stream (h : Refilled model window input window' rest) :
    ∃ read, ∀ history more, stream history window (read ++ more) = stream history window' more := by
  obtain ⟨read, ended, rfl⟩ := h.grown
  exact ⟨read, fun history more => by simp [stream, undecided]⟩

variable [Add α] [Sub α] [Ord α]

/-- A step moves units along the stream, and keeps it. -/
lemma stream_step (hlinked : window.IsLinked) : stream (window.decided model ++ history)
    (window.step model).1 more = stream history window more := by
  have hstep : ((window.decided model).map Prod.fst).reverse ++ (window.step model).1.undecided
      = window.undecided := undecided_step hlinked
  rw [stream, stream, ← hstep]
  simp

/-- The units that wait have several targets. -/
lemma waiting_of_run (h : Run model history window input) :
    ∀ unit ∈ window.pending, unit.ambiguous = true := by
  induction h with
  | start => simp [initial]
  | @step _ _ window' _ _ hrun hrefill _ ih =>
      have hrefilled := refilled_refill (underway_of_run hrun) hrefill
      rw [← hrefilled.pending_eq] at ih
      cases hahead : window'.ahead with
      | nil => simpa [step, hahead] using ih
      | cons unit ahead =>
          simp only [step, hahead]
          split
          · rename_i hambiguous
            exact List.forall_mem_cons.2 ⟨hambiguous, ih⟩
          · simp [commit]
  | next hrun hrefill _ _ ih =>
      exact (refilled_refill (underway_of_run hrun) hrefill).pending_eq ▸ ih
  | broken hrun hrefill _ ih =>
      obtain ⟨units, -, -, rfl⟩ := grown_of_refill_error (underway_of_run hrun) hrefill
      exact ih

/-- The last unit that has been decided leaves no choice. -/
lemma sole_of_run (h : Run model history window input) :
    ∀ decision ∈ history.head?, decision.1.ambiguous = false := by
  induction h with
  | start => simp
  | @step history _ window' _ _ hrun hrefill hne ih =>
      have hlinked := (refilled_refill (underway_of_run hrun) hrefill).underway.linked
      obtain ⟨unit, ahead, hahead⟩ := List.exists_cons_of_ne_nil hne
      cases hambiguous : unit.ambiguous with
      | true => rwa [decided_of_ambiguous model hahead hambiguous]
      | false =>
          intro decision hdecision
          rw [decided_of_sole model hahead hambiguous] at hdecision
          have hunits := map_fst_chain (linked_nextLayer model hlinked unit)
            (linked_nextLayer model hlinked unit).length_pos
          obtain ⟨last, others, hchain, rfl, -⟩ := List.map_eq_cons_iff.1 hunits
          rw [hchain] at hdecision
          obtain rfl := Option.some.inj hdecision
          exact hambiguous
  | next _ _ _ _ ih => exact ih
  | broken _ _ _ ih => exact ih

end Stream

/-! ## Searching -/

section Searched

/-- There is a hypothesis for each choice for the units that wait, and there are no more of them
than choices. -/
structure Searched (pending : List LexicalUnit) (layers : List (Layer α)) : Prop where
  exhaustive : Exhaustive pending layers
  length_le : (layers.headD []).length ≤ choiceCount pending

variable [AddCommGroup α] [LinearOrder α]

omit [LinearOrder α] in
/-- Before the first unit with a choice there is the empty choice only. -/
lemma searched_seeds (count : Nat) : Searched [] (seedLayers (α := α) count) :=
  ⟨exhaustive_seeds count, by simp [seedLayers, List.replicate_succ, choiceCount]⟩

/-- There are as many hypotheses as targets and hypotheses to continue, at most. -/
lemma length_allHypotheses_le : (window.allHypotheses model unit).length
    ≤ max 1 unit.targets.length * (window.layers.headD []).length := by
  refine (Ascending.length_ofList_le _).trans (le_of_eq ?_)
  simp [List.length_flatMap]

/-- The beam drops none when there are no more than it keeps. -/
lemma kept_of_length (h : model.beam = 0 ∨ (window.allHypotheses model unit).length ≤ model.beam) :
    window.nextLayer model unit = window.allHypotheses model unit := by
  rw [nextLayer]
  split
  · rfl
  · rename_i hbeam
    exact List.take_of_length_le (h.resolve_left hbeam)

/-- A beam that covers the runs of units drops no hypothesis for the next one. -/
lemma Searched.kept (h : Searched window.pending window.layers)
    (hwaiting : ∀ unit ∈ window.pending, unit.ambiguous = true)
    (hcovers : CoversRuns model.beam (window.pending.reverse ++ [unit])) :
    window.nextLayer model unit = window.allHypotheses model unit := by
  refine kept_of_length (hcovers.imp_right fun hruns => ?_)
  have hreverse : ∀ unit ∈ window.pending.reverse, unit.ambiguous = true := by simpa using hwaiting
  have hlength : (window.allHypotheses model unit).length
      ≤ max 1 unit.targets.length * choiceCount window.pending :=
    length_allHypotheses_le.trans (Nat.mul_le_mul_left _ h.length_le)
  refine hlength.trans ?_
  cases hambiguous : unit.ambiguous with
  | true =>
      have hrun := hruns _ List.infix_rfl
        (List.forall_mem_append.2 ⟨hreverse, by simpa using hambiguous⟩)
      have htwo : 1 < unit.targets.length := by simpa [LexicalUnit.ambiguous] using hambiguous
      rw [choiceCount_append, choiceCount_reverse, mul_comm] at hrun
      rw [Nat.max_eq_right htwo.le]
      simpa [choiceCount] using hrun
  | false =>
      have hrun := hruns _ (List.prefix_append _ _).isInfix hreverse
      have hone : unit.targets.length ≤ 1 := by simpa [LexicalUnit.ambiguous] using hambiguous
      rw [choiceCount_reverse] at hrun
      rwa [Nat.max_eq_left hone, one_mul]

/-- A layer that drops none has a hypothesis for each choice again. -/
lemma Searched.nextLayer (h : Searched window.pending window.layers)
    (hkept : window.nextLayer model unit = window.allHypotheses model unit)
    (hambiguous : unit.ambiguous = true) :
    Searched (unit :: window.pending) (window.nextLayer model unit :: window.layers) := by
  refine ⟨exhaustive_nextLayer hkept h.exhaustive, ?_⟩
  have htwo : 1 < unit.targets.length := by simpa [LexicalUnit.ambiguous] using hambiguous
  rw [List.headD_cons, hkept]
  refine length_allHypotheses_le.trans ?_
  rw [Nat.max_eq_right htwo.le]
  exact Nat.mul_le_mul_left _ h.length_le

/-- **A beam that covers the runs of units drops nothing**: there is a hypothesis for each choice,
in every state. -/
lemma searched_of_run (h : Run model history window input) (more : List LexicalUnit)
    (hcovers : CoversRuns model.beam (stream history window more)) :
    Searched window.pending window.layers := by
  induction h generalizing more with
  | start => exact searched_seeds 0
  | @step history _ window' _ _ hrun hrefill hne ih =>
      have hrefilled := refilled_refill (underway_of_run hrun) hrefill
      obtain ⟨read, hstream⟩ := hrefilled.exists_stream
      rw [stream_step hrefilled.underway.linked] at hcovers
      have hsearched := ih (read ++ more) (hstream history more ▸ hcovers)
      have hwaiting := waiting_of_run hrun
      rw [← hrefilled.pending_eq] at hsearched hwaiting
      rw [← hrefilled.layers_eq] at hsearched
      obtain ⟨unit, ahead, hahead⟩ := List.exists_cons_of_ne_nil hne
      have hkept := hsearched.kept hwaiting (hcovers.part (infix_stream hahead))
      simp only [step, hahead]
      split
      · rename_i hambiguous
        exact hsearched.nextLayer hkept hambiguous
      · exact searched_seeds _
  | next hrun hrefill _ _ ih =>
      have hrefilled := refilled_refill (underway_of_run hrun) hrefill
      obtain ⟨read, hstream⟩ := hrefilled.exists_stream
      exact hrefilled.pending_eq ▸ hrefilled.layers_eq ▸
        ih (read ++ more) (hstream _ more ▸ hcovers)
  | broken hrun hrefill _ ih =>
      obtain ⟨units, -, -, rfl⟩ := grown_of_refill_error (underway_of_run hrun) hrefill
      refine ih (units ++ more) ?_
      simpa [stream, undecided] using hcovers

end Searched

/-! ## Leading in a run -/

section Run

variable [AddCommGroup α] [LinearOrder α]

/-- The first hypothesis leads when more units are known behind, since those that matter were
known. -/
lemma Leads.grown (h : Leads model history window.pending window.layers window.ahead)
    (hreckoned : Reckoned model history window) (units : List LexicalUnit) :
    Leads model history window.pending window.layers (window.ahead ++ units) := by
  refine h.append (fun unit hunit => hreckoned.settled unit ?_) units
  rw [List.head?_append]
  simp_all

/-- The first hypothesis leads after a refill. -/
lemma Leads.refilled (h : Leads model history window.pending window.layers window.ahead)
    (hreckoned : Reckoned model history window)
    (hrefilled : Refilled model window input window' rest) :
    Leads model history window'.pending window'.layers window'.ahead := by
  obtain ⟨units, ended, rfl⟩ := hrefilled.grown
  exact h.grown hreckoned units

variable [IsOrderedAddMonoid α]

/-- When nothing before a unit is looked at, the first hypothesis leads in every state. -/
lemma leads_of_run (hlookbehind : model.lookbehind = 0) (h : Run model history window input) :
    Leads model history window.pending window.layers window.ahead := by
  induction h with
  | start => exact leads_nil _ _
  | step hrun hrefill hne ih =>
      have hrefilled := refilled_refill (underway_of_run hrun) hrefill
      have hreckoned := (reckoned_of_run hrun).refilled hrefilled
      have hthrough := hrefilled.underway.throughEnd_ahead hne
      obtain ⟨unit, ahead, hahead⟩ := List.exists_cons_of_ne_nil hne
      have hnext := leads_nextLayer hlookbehind hrefilled.underway.linked hreckoned.past hahead
        (hahead ▸ hthrough) hreckoned.costs (ih.refilled (reckoned_of_run hrun) hrefilled)
      simp only [step, decided, hahead]
      split
      · exact hnext
      · exact leads_nil _ _
  | next hrun hrefill _ _ ih =>
      have hrefilled := refilled_refill (underway_of_run hrun) hrefill
      have hleads := ih.refilled (reckoned_of_run hrun) hrefilled
      exact hleads
  | broken hrun hrefill _ ih =>
      obtain ⟨units, -, -, rfl⟩ := grown_of_refill_error (underway_of_run hrun) hrefill
      exact ih.grown (reckoned_of_run hrun) units

/-- **The first hypothesis for the next unit leads**, when nothing before a unit is looked at, or
when the beam covers the runs of units. -/
lemma leads_next (hrun : Run model history window input)
    (hrefill : window.refill model input = (window', .ok () rest))
    (hahead : window'.ahead = unit :: ahead) (more : List LexicalUnit)
    (hsearch : model.lookbehind = 0 ∨ CoversRuns model.beam (stream history window' more)) :
    Leads model history (unit :: window'.pending)
      (window'.nextLayer model unit :: window'.layers) ahead := by
  have hrefilled := refilled_refill (underway_of_run hrun) hrefill
  have hlinked := hrefilled.underway.linked
  have hreckoned := (reckoned_of_run hrun).refilled hrefilled
  have hthrough := hrefilled.underway.throughEnd_ahead (by simp [hahead])
  rw [hahead] at hthrough
  rcases hsearch with hlookbehind | hcovers
  · have hleads := (leads_of_run hlookbehind hrun).refilled (reckoned_of_run hrun) hrefilled
    exact leads_nextLayer hlookbehind hlinked hreckoned.past hahead hthrough hreckoned.costs hleads
  · obtain ⟨read, hstream⟩ := hrefilled.exists_stream
    have hsearched := searched_of_run hrun (read ++ more) (hstream history more ▸ hcovers)
    have hwaiting := waiting_of_run hrun
    rw [← hrefilled.pending_eq] at hsearched hwaiting
    rw [← hrefilled.layers_eq] at hsearched
    have hkept := hsearched.kept hwaiting (hcovers.part (infix_stream hahead))
    have hcosts := costed_nextLayer hlinked hreckoned.past hahead hthrough hreckoned.costs
    exact fun others hothers => gain_le_of_kept hkept hsearched.exhaustive hcosts hothers

end Run

end Window

end LexicalSelection
