import LexicalSelection.Proofs.Order.Ascending
import LexicalSelection.Selector.Window

/-!
# Layers of hypotheses and the way back through them

Each hypothesis chooses a target that its unit has, and continues one that is there.  So the way
back from any hypothesis passes every pending unit once, with a choice for each of them.

* `Decision` — a unit with the number of the target that is chosen for it.
* `Linked` — layers over pending units in which every hypothesis can be followed back.
* `chain` — the decisions of a hypothesis and of those before it.
* **`map_fst_chain`**, **`valid_chain`** — a chain has a decision for each pending unit, and every
  decision is for a target of its own unit.
* `Window.decided` — the decisions that a step writes.
* **`undecided_step`** — a step loses no unit, makes none up and keeps their order.

Nothing here depends on what weights are, or on how they are compared.
-/

namespace LexicalSelection

/-! ## The order of hypotheses -/

namespace Hypothesis

variable {α : Type} [Ord α]

instance [Std.TransOrd α] : Std.TransOrd (Hypothesis α) :=
  inferInstanceAs (Std.TransCmp
    (compareLex (compareOn cost) (compareLex (compareOn reading) (compareOn previous))))

instance [Std.TransOrd α] [Std.LawfulEqOrd α] : Std.LawfulEqOrd (Hypothesis α) where
  eq_of_compare {a b} h := by
    obtain ⟨hcost, hrest⟩ := Ordering.then_eq_eq.1 h
    obtain ⟨hreading, hprevious⟩ := Ordering.then_eq_eq.1 hrest
    obtain ⟨cost, reading, previous⟩ := a
    obtain ⟨cost', reading', previous'⟩ := b
    obtain rfl : cost = cost' := Std.LawfulEqOrd.eq_of_compare hcost
    obtain rfl : reading = reading' := Std.LawfulEqOrd.eq_of_compare hreading
    obtain rfl : previous = previous' := Std.LawfulEqOrd.eq_of_compare hprevious
    rfl

end Hypothesis

/-! ## Decisions -/

/-- A unit with the number of the target that is chosen for it. -/
abbrev Decision := LexicalUnit × Nat

/-- The number is that of a target, or 0 when there is none. -/
def Decision.Valid (decision : Decision) : Prop := decision.2 < max 1 decision.1.targets.length

namespace Window

variable {α : Type} {model : Model α} {window : Window α} {unit : LexicalUnit}
  {pending : List LexicalUnit} {layer : Layer α} {layers : List (Layer α)} {count place : Nat}

/-! ## Chains -/

/-- The decisions of the hypothesis at a place of the last layer and of those before it, the last
one first. -/
def chain (place : Nat) (pending : List LexicalUnit) (layers : List (Layer α)) : List Decision :=
  pending.zip (choices place pending.length layers)

@[simp] lemma chain_nil : chain place [] layers = [] := rfl

/-- A chain is the choice of its last hypothesis, and the chain of the one that it continues. -/
lemma chain_cons {hypothesis : Hypothesis α} (h : layer[place]? = some hypothesis) :
    chain place (unit :: pending) (layer :: layers)
      = (unit, hypothesis.reading) :: chain hypothesis.previous pending layers := by
  simp [chain, choices, h]

/-- The last decision of a chain is for the last pending unit. -/
lemma head?_chain {decision : Decision} (h : decision ∈ (chain place pending layers).head?) :
    decision.1 ∈ pending.head? := by
  cases pending with
  | nil => simp at h
  | cons unit pending =>
      cases hchoices : choices place (pending.length + 1) layers with
      | nil => simp [chain, hchoices] at h
      | cons choice others =>
          obtain rfl : (unit, choice) = decision := by simpa [chain, hchoices] using h
          rfl

section Linked

variable [Zero α]

/-- Layers over pending units, above layers of seeds for a number of past ones.  Each hypothesis is
for a target of its unit and continues a hypothesis of the layer before. -/
inductive Linked (count : Nat) : List LexicalUnit → List (Layer α) → Prop
  | seeds : Linked count [] (seedLayers count)
  | layer {unit : LexicalUnit} {pending : List LexicalUnit} {layer : Layer α}
      {layers : List (Layer α)} (hne : layer ≠ [])
      (hreading : ∀ hypothesis ∈ layer, Decision.Valid (unit, hypothesis.reading))
      (hprevious : ∀ hypothesis ∈ layer, hypothesis.previous < (layers.headD []).length)
      (h : Linked count pending layers) : Linked count (unit :: pending) (layer :: layers)

/-- There is a hypothesis in the last layer. -/
lemma Linked.headD_ne_nil (h : Linked count pending layers) : layers.headD [] ≠ [] := by
  cases h with
  | seeds => simp [seedLayers, List.replicate_succ]
  | layer hne _ _ _ => exact hne

lemma Linked.length_pos (h : Linked count pending layers) : 0 < (layers.headD []).length :=
  List.length_pos_iff.2 h.headD_ne_nil

/-- **A chain has a decision for each pending unit.** -/
lemma map_fst_chain (h : Linked count pending layers) (hplace : place < (layers.headD []).length) :
    (chain place pending layers).map Prod.fst = pending := by
  induction h generalizing place with
  | seeds => rfl
  | layer _ _ hprevious _ ih =>
      rw [List.headD_cons] at hplace
      have hget := List.getElem?_eq_getElem hplace
      rw [chain_cons hget, List.map_cons, ih (hprevious _ (List.getElem_mem hplace))]

/-- **Every decision of a chain is for a target of its own unit.** -/
lemma valid_chain (h : Linked count pending layers) (hplace : place < (layers.headD []).length) :
    ∀ decision ∈ chain place pending layers, Decision.Valid decision := by
  induction h generalizing place with
  | seeds => simp
  | layer _ hreading hprevious _ ih =>
      rw [List.headD_cons] at hplace
      have hget := List.getElem?_eq_getElem hplace
      rw [chain_cons hget]
      have hmem := List.getElem_mem hplace
      exact List.forall_mem_cons.2 ⟨hreading _ hmem, ih (hprevious _ hmem)⟩

end Linked

/-! ## Commits -/

section Commits

variable [Zero α] [Sub α] {ahead : List LexicalUnit}

/-- Committing puts the first chain in front of the past units, as far as these are looked back
at. -/
lemma commit_past : (window.commit model layers unit ahead).1.past
    = ((chain 0 (unit :: window.pending) layers).map keepChoice ++ window.past).take
      model.lookbehind := rfl

/-- Committing takes the cost of the best hypothesis off the score. -/
lemma commit_score {best : Hypothesis α} {others : Layer α} :
    (window.commit model ((best :: others) :: layers) unit ahead).1.score
      = window.score - best.cost := rfl

end Commits

/-! ## New layers -/

section Steps

variable [Zero α] [Add α] [Sub α] [Ord α]

/-- A hypothesis for the current unit chooses a target of it and continues a hypothesis before. -/
lemma mem_allHypotheses {hypothesis : Hypothesis α}
    (h : hypothesis ∈ window.allHypotheses model unit) :
    Decision.Valid (unit, hypothesis.reading) ∧
      hypothesis.previous < (window.layers.headD []).length := by
  have hmem := Ascending.mem_of_mem_ofList h
  simp only [List.mem_flatMap, List.mem_range, List.mem_map, Prod.exists,
    List.mk_mem_zipIdx_iff_getElem?] at hmem
  obtain ⟨reading, hreading, before, previous, hbefore, rfl⟩ := hmem
  exact ⟨hreading, (List.getElem?_eq_some_iff.1 hbefore).1⟩

/-- A unit has a hypothesis when there is one to continue. -/
lemma allHypotheses_ne_nil (model : Model α) (unit : LexicalUnit)
    (h : window.layers.headD [] ≠ []) :
    window.allHypotheses model unit ≠ [] := by
  refine Ascending.ofList_ne_nil ?_
  intro hnil
  have hfirst := List.flatMap_eq_nil_iff.1 hnil 0 (by simp)
  rw [List.map_eq_nil_iff, List.zipIdx_eq_nil_iff] at hfirst
  exact h hfirst

/-- The beam brings in no hypothesis. -/
lemma mem_nextLayer {hypothesis : Hypothesis α} (h : hypothesis ∈ window.nextLayer model unit) :
    hypothesis ∈ window.allHypotheses model unit := by
  simp only [nextLayer] at h
  split at h
  · exact h
  · exact List.mem_of_mem_take h

/-- A beam that is not 0 keeps a hypothesis at least. -/
lemma nextLayer_ne_nil (h : window.layers.headD [] ≠ []) : window.nextLayer model unit ≠ [] := by
  have hall := allHypotheses_ne_nil model unit h
  simp only [nextLayer]
  split
  · exact hall
  · rename_i hbeam
    simp [List.take_eq_nil_iff, hall, hbeam]

/-- The layers of the window are linked over its pending units. -/
def IsLinked (window : Window α) : Prop :=
  Linked window.past.length window.pending window.layers

/-- A new layer is linked to the one before. -/
lemma linked_nextLayer (model : Model α) (h : window.IsLinked) (unit : LexicalUnit) :
    Linked window.past.length (unit :: window.pending)
      (window.nextLayer model unit :: window.layers) :=
  .layer (nextLayer_ne_nil h.headD_ne_nil)
    (fun _ hmem => (mem_allHypotheses (mem_nextLayer hmem)).1)
    (fun _ hmem => (mem_allHypotheses (mem_nextLayer hmem)).2) h

/-! ## One step -/

/-- The decisions that a step writes, the last one first. -/
def decided (model : Model α) (window : Window α) : List Decision :=
  match window.ahead with
  | [] => []
  | unit :: _ =>
    if unit.ambiguous then []
    else chain 0 (unit :: window.pending) (window.nextLayer model unit :: window.layers)

/-- The units that have been read and not been written, in their order. -/
def undecided (window : Window α) : List LexicalUnit := window.pending.reverse ++ window.ahead

/-- Nothing is decided at a unit with a choice. -/
lemma decided_of_ambiguous (model : Model α) {ahead : List LexicalUnit}
    (hahead : window.ahead = unit :: ahead) (h : unit.ambiguous = true) :
    window.decided model = [] := by
  simp [decided, hahead, h]

/-- At a unit without a choice the first chain is decided. -/
lemma decided_of_sole (model : Model α) {ahead : List LexicalUnit}
    (hahead : window.ahead = unit :: ahead) (h : unit.ambiguous = false) :
    window.decided model
      = chain 0 (unit :: window.pending) (window.nextLayer model unit :: window.layers) := by
  simp [decided, hahead, h]

/-- A unit with a choice waits with those before it. -/
lemma pending_of_ambiguous (model : Model α) {ahead : List LexicalUnit}
    (hahead : window.ahead = unit :: ahead) (h : unit.ambiguous = true) :
    (window.step model).1.pending = unit :: window.pending := by
  simp [step, hahead, h]

/-- A step writes what it decides, the first decision first. -/
lemma step_text : (window.step model).2
    = (window.decided model).reverse.flatMap writeChoice := by
  cases hahead : window.ahead with
  | nil => simp [step, decided, hahead]
  | cons unit ahead =>
      simp only [step, decided, hahead]
      split <;> rfl

/-- The layers are linked after each step. -/
lemma isLinked_step (model : Model α) (h : window.IsLinked) : (window.step model).1.IsLinked := by
  cases hahead : window.ahead with
  | nil => simpa [step, hahead] using h
  | cons unit ahead =>
      simp only [step, hahead]
      split
      · exact linked_nextLayer model h unit
      · exact .seeds

/-- A step decides for targets that the units have. -/
lemma valid_decided (h : window.IsLinked) :
    ∀ decision ∈ window.decided model, Decision.Valid decision := by
  cases hahead : window.ahead with
  | nil => simp [decided, hahead]
  | cons unit ahead =>
      simp only [decided, hahead]
      split
      · simp
      · have hlinked := linked_nextLayer model h unit
        exact valid_chain hlinked hlinked.length_pos

/-- **A step loses no unit**: what was undecided is what it writes and what is undecided then. -/
lemma undecided_step (h : window.IsLinked) :
    ((window.decided model).map Prod.fst).reverse ++ (window.step model).1.undecided
      = window.undecided := by
  cases hahead : window.ahead with
  | nil => simp [decided, step, hahead]
  | cons unit ahead =>
      simp only [decided, step, hahead, undecided]
      split
      · simp
      · have hlinked := linked_nextLayer model h unit
        rw [map_fst_chain hlinked hlinked.length_pos]
        simp [commit]

end Steps

end Window

end LexicalSelection
