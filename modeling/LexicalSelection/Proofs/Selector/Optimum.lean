import LexicalSelection.Proofs.Selector.Score
import Mathlib.Algebra.Order.Ring.Int

/-!
# The best of all choices

When no hypothesis is dropped, the layers hold a chain for every way to choose targets for the
pending units, and the first hypothesis of a layer is the best.  So a commit writes targets that
gain as much as any others would.

* `Assigns` — a choice of one target for each of some units.
* `Exhaustive` — every choice is the chain of some hypothesis (`exhaustive_of_run`).
* `Waits` — how units come to wait for a decision.
* **`cost_head_le`** — the first hypothesis of a layer costs least.
* **`decided_optimal`** — what is written for a row of units gains most among all choices.
-/

namespace LexicalSelection

/-! ## The order of hypotheses -/

namespace Hypothesis

variable {α : Type} [LinearOrder α]

/-- A hypothesis that comes before another one costs no more. -/
lemma cost_le_of_compare {a b : Hypothesis α} (h : compare a b = .lt) : a.cost ≤ b.cost := by
  refine compare_le_iff_le.1 fun hgt => ?_
  have hcompare : compare a b = .gt := by
    change (compare a.cost b.cost).then _ = .gt
    rw [hgt]
    rfl
  rw [hcompare] at h
  cases h

end Hypothesis

namespace Window

variable {α : Type} {model : Model α} {window window' : Window α} {input input' rest : Input}
  {unit : LexicalUnit} {pending units : List LexicalUnit} {layers : List (Layer α)}
  {history : List Decision}

/-! ## Choices -/

/-- A choice of a target for each of some units, the last one first; a unit without targets has one
choice. -/
def Assigns (units : List LexicalUnit) (decisions : List Decision) : Prop :=
  decisions.map Prod.fst = units ∧ ∀ decision ∈ decisions, Decision.Valid decision

lemma assigns_chain [Zero α] {count place : Nat} (h : Linked count pending layers)
    (hplace : place < (layers.headD []).length) : Assigns pending (chain place pending layers) :=
  ⟨map_fst_chain h hplace, valid_chain h hplace⟩

/-- Every choice for the pending units is the chain of some hypothesis of the last layer. -/
def Exhaustive (pending : List LexicalUnit) (layers : List (Layer α)) : Prop :=
  ∀ decisions, Assigns pending decisions →
    ∃ place, place < (layers.headD []).length ∧ chain place pending layers = decisions

lemma exhaustive_seeds [Zero α] (count : Nat) :
    Exhaustive [] (seedLayers (α := α) count) := by
  rintro decisions ⟨hunits, -⟩
  obtain rfl := List.map_eq_nil_iff.1 hunits
  exact ⟨0, by simp [seedLayers, List.replicate_succ], rfl⟩

section Beam

variable [AddCommGroup α] [LinearOrder α]

/-- Each target of the current unit is chosen behind each hypothesis of the last layer. -/
lemma mem_allHypotheses_of_valid {before : Hypothesis α} {reading previous : Nat}
    (hreading : Decision.Valid (unit, reading))
    (hbefore : (window.layers.headD [])[previous]? = some before) :
    Hypothesis.mk (before.cost - model.weights.score
      (window.activeLocations model unit reading previous)) reading previous
        ∈ window.allHypotheses model unit := by
  rw [allHypotheses, Ascending.mem_ofList]
  simp only [List.mem_flatMap, List.mem_range, List.mem_map, Prod.exists,
    List.mk_mem_zipIdx_iff_getElem?]
  exact ⟨reading, hreading, before, previous, hbefore, rfl⟩

/-- When no hypothesis is dropped, each target of the current unit is chosen behind the chain of
each hypothesis of the last layer. -/
lemma exists_place (hkept : window.nextLayer model unit = window.allHypotheses model unit)
    {reading previous : Nat} (hreading : Decision.Valid (unit, reading))
    (hprevious : previous < (window.layers.headD []).length) :
    ∃ place, place < (window.nextLayer model unit).length ∧
      chain place (unit :: window.pending) (window.nextLayer model unit :: window.layers)
        = (unit, reading) :: chain previous window.pending window.layers := by
  have hmem : _ ∈ window.allHypotheses model unit :=
    mem_allHypotheses_of_valid hreading (List.getElem?_eq_getElem hprevious)
  rw [← hkept] at hmem
  obtain ⟨place, hget⟩ := List.getElem?_of_mem hmem
  exact ⟨place, (List.getElem?_eq_some_iff.1 hget).1, chain_cons hget⟩

/-- When no hypothesis is dropped, the next layer continues each hypothesis with each target. -/
lemma exhaustive_nextLayer (hkept : window.nextLayer model unit = window.allHypotheses model unit)
    (h : Exhaustive window.pending window.layers) :
    Exhaustive (unit :: window.pending) (window.nextLayer model unit :: window.layers) := by
  rintro decisions ⟨hunits, hvalid⟩
  obtain ⟨⟨unit, reading⟩, decisions, rfl, rfl, hrest⟩ := List.map_eq_cons_iff.1 hunits
  obtain ⟨hreading, hothers⟩ := List.forall_mem_cons.1 hvalid
  obtain ⟨previous, hprevious, rfl⟩ := h decisions ⟨hrest, hothers⟩
  exact exists_place hkept hreading hprevious

/-- **The first hypothesis costs least**, of all that there were before the beam: the layer is in
order, and the beam drops the last ones. -/
lemma cost_head_le {best hypothesis : Hypothesis α} {others : Layer α}
    (hlayer : window.nextLayer model unit = best :: others)
    (h : hypothesis ∈ window.allHypotheses model unit) : best.cost ≤ hypothesis.cost := by
  have hprefix : window.nextLayer model unit <+: window.allHypotheses model unit := by
    rw [nextLayer]
    split
    · exact List.prefix_rfl
    · exact List.take_prefix _ _
  obtain ⟨dropped, hall⟩ := hprefix
  have hstrict : Ascending.Strict (window.allHypotheses model unit) := Ascending.strict_ofList _
  rw [← hall, hlayer] at h hstrict
  rcases List.mem_cons.1 h with rfl | hothers
  · exact le_rfl
  · exact Hypothesis.cost_le_of_compare ((List.pairwise_cons.1 hstrict).1 hypothesis hothers)

lemma exhaustive_step (hbeam : model.beam = 0) (h : Exhaustive window.pending window.layers) :
    Exhaustive (window.step model).1.pending (window.step model).1.layers := by
  cases hahead : window.ahead with
  | nil => simpa [step, hahead] using h
  | cons unit ahead =>
      simp only [step, hahead]
      split
      · exact exhaustive_nextLayer (if_pos hbeam) h
      · exact exhaustive_seeds _

lemma exhaustive_of_run (hbeam : model.beam = 0) (h : Run model history window input) :
    Exhaustive window.pending window.layers := by
  induction h with
  | start => exact exhaustive_seeds 0
  | step hrun hrefill _ ih =>
      have hrefilled := refilled_refill (underway_of_run hrun) hrefill
      exact exhaustive_step hbeam (hrefilled.pending_eq ▸ hrefilled.layers_eq ▸ ih)
  | next hrun hrefill _ _ ih =>
      have hrefilled := refilled_refill (underway_of_run hrun) hrefill
      exact hrefilled.pending_eq ▸ hrefilled.layers_eq ▸ ih
  | broken hrun hrefill _ ih =>
      obtain ⟨units, -, -, rfl⟩ := grown_of_refill_error (underway_of_run hrun) hrefill
      exact ih

/-! ## Commits -/

/-- Units come to wait one by one, the last one first: each is read with those that are looked at
behind it, and leaves a choice. -/
inductive Waits (model : Model α) (window : Window α) (input : Input) :
    List LexicalUnit → Window α → Input → Prop
  | none : Waits model window input [] window input
  | unit {unit : LexicalUnit} {units ahead : List LexicalUnit} {window' window'' : Window α}
      {input' rest : Input} (h : Waits model window input units window' input')
      (hrefill : window'.refill model input' = (window'', .ok () rest))
      (hahead : window''.ahead = unit :: ahead) (hambiguous : unit.ambiguous = true) :
      Waits model window input (unit :: units) (window''.step model).1 rest

/-- Nothing is written while units wait. -/
lemma run_of_waits (hrun : Run model history window input) (hempty : window.pending = [])
    (h : Waits model window input units window' input') :
    Run model history window' input' ∧ window'.pending = units := by
  induction h with
  | none => exact ⟨hrun, hempty⟩
  | unit _ hrefill hahead hambiguous ih =>
      obtain ⟨hrun', hpending⟩ := ih
      have hrefilled := refilled_refill (underway_of_run hrun') hrefill
      have hstep := hrun'.step hrefill (by simp [hahead])
      refine ⟨?_, ?_⟩
      · rwa [decided_of_ambiguous model hahead hambiguous, List.nil_append] at hstep
      · rw [pending_of_ambiguous model hahead hambiguous, hrefilled.pending_eq, hpending]

variable [IsOrderedAddMonoid α]

/-- The chain of the first hypothesis of a layer gains as much as any other, since that costs
least. -/
lemma gain_chain_le {ahead : List LexicalUnit} {place : Nat}
    (hcosts : Costed model history (unit :: window.pending)
      (window.nextLayer model unit :: window.layers) ahead)
    (hplace : place < (window.nextLayer model unit).length) :
    model.gain (chain place (unit :: window.pending)
        (window.nextLayer model unit :: window.layers)) history ahead
      ≤ model.gain (chain 0 (unit :: window.pending)
        (window.nextLayer model unit :: window.layers)) history ahead := by
  have hne : window.nextLayer model unit ≠ [] :=
    List.ne_nil_of_length_pos (Nat.lt_of_le_of_lt (Nat.zero_le _) hplace)
  obtain ⟨best, rest, hlayer⟩ := List.exists_cons_of_ne_nil hne
  have hle := cost_head_le hlayer (mem_nextLayer (List.getElem_mem hplace))
  rw [hcosts 0 0 best (by simp [hlayer]), hcosts 0 place _ (by simp), neg_le_neg_iff] at hle
  simpa using hle

/-- When no hypothesis is dropped, the chain of the first one gains most, since every choice is a
chain. -/
lemma gain_le_of_kept {ahead : List LexicalUnit} {others : List Decision}
    (hkept : window.nextLayer model unit = window.allHypotheses model unit)
    (hall : Exhaustive window.pending window.layers)
    (hcosts : Costed model history (unit :: window.pending)
      (window.nextLayer model unit :: window.layers) ahead)
    (hothers : Assigns (unit :: window.pending) others) :
    model.gain others history ahead ≤ model.gain
      (chain 0 (unit :: window.pending) (window.nextLayer model unit :: window.layers))
      history ahead := by
  obtain ⟨place, hplace, rfl⟩ := exhaustive_nextLayer hkept hall others hothers
  exact gain_chain_le hcosts hplace

/-- Without a beam no hypothesis is dropped. -/
lemma gain_le_gain_chain {ahead : List LexicalUnit} {others : List Decision}
    (hbeam : model.beam = 0) (hall : Exhaustive window.pending window.layers)
    (hcosts : Costed model history (unit :: window.pending)
      (window.nextLayer model unit :: window.layers) ahead)
    (hothers : Assigns (unit :: window.pending) others) :
    model.gain others history ahead ≤ model.gain
      (chain 0 (unit :: window.pending) (window.nextLayer model unit :: window.layers))
      history ahead :=
  gain_le_of_kept (if_pos hbeam) hall hcosts hothers

/-- **What is written for a row of units gains most.**  Without a beam, whatever has been decided
before: after any units that leave a choice comes one that leaves none, and then a choice for all of
them is written that gains as much as any other choice of their targets, whatever is read later. -/
theorem decided_optimal {ahead : List LexicalUnit} {window'' : Window α} (hbeam : model.beam = 0)
    (hrun : Run model history window input) (hempty : window.pending = [])
    (hwaits : Waits model window input units window' input')
    (hrefill : window'.refill model input' = (window'', .ok () rest))
    (hahead : window''.ahead = unit :: ahead) (hsole : unit.ambiguous = false) :
    ∃ decisions, Assigns (unit :: units) decisions ∧
      (window''.step model).2 = decisions.reverse.flatMap writeChoice ∧
      Run model (decisions ++ history) (window''.step model).1 rest ∧
      ∀ others more, Assigns (unit :: units) others →
        model.gain others history (ahead ++ more)
          ≤ model.gain decisions history (ahead ++ more) := by
  obtain ⟨hrun', rfl⟩ := run_of_waits hrun hempty hwaits
  have hrefilled := refilled_refill (underway_of_run hrun') hrefill
  have hne : window''.ahead ≠ [] := by simp [hahead]
  have hreckoned := (reckoned_of_run hrun').refilled hrefilled
  have hsettled := hrefilled.settled hne
  have hthrough := hrefilled.underway.throughEnd_ahead hne
  rw [hahead] at hsettled hthrough
  have hcosts := costed_nextLayer hrefilled.underway.linked hreckoned.past hahead hthrough
    hreckoned.costs
  have hlinked := linked_nextLayer model hrefilled.underway.linked unit
  have hall : Exhaustive window''.pending window''.layers := by
    rw [hrefilled.pending_eq, hrefilled.layers_eq]
    exact exhaustive_of_run hbeam hrun'
  have hdecided := decided_of_sole model hahead hsole
  have hassigns : Assigns (unit :: window''.pending) (window''.decided model) := by
    rw [hdecided]
    exact assigns_chain hlinked hlinked.length_pos
  refine ⟨window''.decided model, hrefilled.pending_eq ▸ hassigns, step_text,
    hrun'.step hrefill hne, fun others more hothers => ?_⟩
  rw [← hrefilled.pending_eq] at hothers
  have hlast : ∀ {decisions}, Assigns (unit :: window''.pending) decisions →
      ∀ decision ∈ decisions.head?, model.Settled (decision.1 :: ahead) := by
    intro decisions h decision hdecision
    have hunit : decision.1 ∈ (decisions.map Prod.fst).head? := by simp_all
    rw [h.1] at hunit
    obtain rfl := Option.some.inj hunit
    exact hsettled
  rw [Model.gain_later _ (hlast hothers), Model.gain_later _ (hlast hassigns), hdecided]
  exact gain_le_gain_chain hbeam hall hcosts hothers

/-- A model that likes one target by itself, and the other one in front of a certain source reading.
The unit behind has that reading, so the second target is written, as the best choice for both
units.
-/
theorem decided_optimal_second_target :
    let model : Model Int := Model.setWeight (.of ⟨0, 2⟩ ⟨1, 3⟩) 5 <|
      Model.setWeight (.unary ⟨0, 1⟩) 2 <| Model.rebuildMatcher
        { lookahead := 1
          features := [{ name := [] }, { name := ['B'], patterns := ["tl/b".toList] },
            { name := ['C'], patterns := ["tl/c".toList] },
            { name := ['D'], patterns := ["sl/d".toList] }] }
    let unit : LexicalUnit :=
      ⟨[], some ⟨[.plain 'a'], [0]⟩, [⟨[.plain 'b'], [0, 1]⟩, ⟨[.plain 'c'], [0, 2]⟩]⟩
    let sole : LexicalUnit := ⟨[' '], some ⟨[.plain 'd'], [0, 3]⟩, [⟨[.plain 'e'], [0]⟩]⟩
    ∃ decisions, Assigns [sole, unit] decisions ∧
      decisions.reverse.flatMap writeChoice = "^a/c$ ^d/e$".toList ∧
      ∀ others more, Assigns [sole, unit] others →
        model.gain others [] ({} :: more) ≤ model.gain decisions [] ({} :: more) := by
  intro model unit sole
  let input := Input.ofText "^a/b/c$ ^d/e$".toList
  let first := (Window.initial.refill model input).1
  let waiting := (first.step model).1
  let second := (waiting.refill model []).1
  have hrefill : Window.initial.refill model input = (first, .ok () []) :=
    Prod.ext rfl (by decide +kernel)
  have hahead : first.ahead = [unit, sole] := by decide +kernel
  have hwaits : Waits model .initial input [unit] waiting [] := .unit .none hrefill hahead rfl
  have hrefill' : waiting.refill model [] = (second, .ok () []) :=
    Prod.ext rfl (by decide +kernel)
  have hahead' : second.ahead = [sole, {}] := by decide +kernel
  have hwritten : (second.step model).2 = "^a/c$ ^d/e$".toList := by decide +kernel
  obtain ⟨decisions, hassigns, htext, -, hbest⟩ :=
    decided_optimal rfl (.start input) rfl hwaits hrefill' hahead' rfl
  exact ⟨decisions, hassigns, htext ▸ hwritten, hbest⟩

end Beam

end Window

end LexicalSelection
