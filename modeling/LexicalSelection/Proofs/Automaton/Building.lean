import LexicalSelection.Proofs.Automaton.Language

/-!
# Building graphs step by step

What each building step does to the arcs and to the final states of a graph.

* `mem_arcs_link`, `mem_arcs_addArc` — a step adds one arc.
* `isFinal_setFinal` — a step makes one state final.
-/

namespace LexicalSelection.Graph

variable {graph : Graph} {p q source target symbol : Nat} {arc : Arc}

/-! ## New states -/

/-- There is nothing behind a new state. -/
lemma nodes_addState_eq_none (h : graph.nodes.length < p) :
    (graph.nodes ++ [({} : Node)])[p]? = none := by
  rw [List.getElem?_eq_none_iff, List.length_append, List.length_singleton]
  omega

/-- A new state has no arcs, and the others keep theirs. -/
@[simp] lemma arcs_addState : graph.addState.2.arcs p = graph.arcs p := by
  rcases Nat.lt_trichotomy p graph.nodes.length with h | rfl | h
  · simp [addState, arcs, List.getElem?_append_left h]
  · simp [addState, arcs]
  · simp [addState, arcs, nodes_addState_eq_none h, Nat.le_of_lt h]

/-- A new state is not final, and the others stay as they are. -/
@[simp] lemma isFinal_addState : graph.addState.2.isFinal p = graph.isFinal p := by
  rcases Nat.lt_trichotomy p graph.nodes.length with h | rfl | h
  · simp [addState, isFinal, List.getElem?_append_left h]
  · simp [addState, isFinal]
  · simp [addState, isFinal, nodes_addState_eq_none h, Nat.le_of_lt h]

@[simp] lemma size_addState : graph.addState.2.size = graph.size + 1 := by
  simp [addState, size]

@[simp] lemma initials_addState : graph.addState.2.initials = graph.initials := rfl

/-! ## New arcs -/

/-- An arc only changes the state that it leaves. -/
lemma arcs_link_of_ne (h : p ≠ source) :
    (graph.link source target symbol).arcs p = graph.arcs p := by
  simp [link, arcs, Ne.symm h]

/-- Linking two states adds one arc, at the state that it leaves. -/
lemma mem_arcs_link (h : source < graph.size) :
    arc ∈ (graph.link source target symbol).arcs p
      ↔ (p = source ∧ arc = ⟨symbol, target⟩) ∨ arc ∈ graph.arcs p := by
  by_cases hp : p = source
  · subst hp
    simp [link, arcs, List.getElem?_eq_getElem (show p < graph.nodes.length from h)]
  · simp [arcs_link_of_ne hp, hp]

/-- Linking makes no state final. -/
@[simp] lemma isFinal_link : (graph.link source target symbol).isFinal p = graph.isFinal p := by
  by_cases hp : source = p <;> cases h : graph.nodes[p]? <;>
    simp [link, isFinal, hp, h]

@[simp] lemma size_link : (graph.link source target symbol).size = graph.size := by
  simp [link, size]

@[simp] lemma initials_link : (graph.link source target symbol).initials = graph.initials := rfl

/-- Linking two states of a closed graph leaves it closed. -/
lemma closed_link (hclosed : graph.Closed) (hsource : source < graph.size)
    (htarget : target < graph.size) : (graph.link source target symbol).Closed where
  initial_lt := by simpa using hclosed.initial_lt
  target_lt p arc harc := by
    rw [size_link]
    rcases (mem_arcs_link hsource).1 harc with ⟨-, rfl⟩ | harc
    · exact htarget
    · exact hclosed.target_lt p arc harc

@[simp] lemma addArc_fst : (graph.addArc source symbol).1 = graph.size := rfl

/-- An arc to a new state only changes the state that it leaves. -/
lemma arcs_addArc_of_ne (h : p ≠ source) :
    (graph.addArc source symbol).2.arcs p = graph.arcs p :=
  (arcs_link_of_ne h).trans arcs_addState

/-- An arc to a new state is added where it leaves, and leads behind the old states. -/
lemma mem_arcs_addArc (h : source < graph.size) :
    arc ∈ (graph.addArc source symbol).2.arcs p
      ↔ (p = source ∧ arc = ⟨symbol, graph.size⟩) ∨ arc ∈ graph.arcs p := by
  have hsource : source < graph.addState.2.size := by
    rw [size_addState]
    exact Nat.lt_succ_of_lt h
  exact (mem_arcs_link hsource).trans (by rw [arcs_addState])

@[simp] lemma isFinal_addArc : (graph.addArc source symbol).2.isFinal p = graph.isFinal p := by
  simp [addArc]

@[simp] lemma size_addArc : (graph.addArc source symbol).2.size = graph.size + 1 := by
  simp [addArc]

@[simp] lemma initials_addArc : (graph.addArc source symbol).2.initials = graph.initials := rfl

/-- A closed graph stays closed with an arc to a new state. -/
lemma closed_addArc (hclosed : graph.Closed) (h : source < graph.size) :
    (graph.addArc source symbol).2.Closed where
  initial_lt p hp := by
    rw [size_addArc]
    exact Nat.lt_succ_of_lt (hclosed.initial_lt p hp)
  target_lt p arc harc := by
    rw [size_addArc]
    rcases (mem_arcs_addArc h).1 harc with ⟨-, rfl⟩ | harc
    · exact Nat.lt_succ_self _
    · exact Nat.lt_succ_of_lt (hclosed.target_lt p arc harc)

/-! ## New final states -/

/-- Making a state final changes no arc. -/
@[simp] lemma arcs_setFinal : (graph.setFinal q).arcs p = graph.arcs p := by
  by_cases hp : q = p <;> cases h : graph.nodes[p]? <;> simp [setFinal, arcs, hp, h]

lemma isFinal_setFinal_of_ne (h : p ≠ q) : (graph.setFinal q).isFinal p = graph.isFinal p := by
  simp [setFinal, isFinal, Ne.symm h]

/-- That state is final then, and no other one becomes final. -/
lemma isFinal_setFinal (h : q < graph.size) :
    (graph.setFinal q).isFinal p = true ↔ p = q ∨ graph.isFinal p = true := by
  by_cases hp : p = q
  · subst hp
    simp [setFinal, isFinal, List.getElem?_eq_getElem (show p < graph.nodes.length from h)]
  · simp [isFinal_setFinal_of_ne hp, hp]

@[simp] lemma size_setFinal : (graph.setFinal q).size = graph.size := by
  simp [setFinal, size]

@[simp] lemma initials_setFinal : (graph.setFinal q).initials = graph.initials := rfl

/-- Making a state final leaves a closed graph closed. -/
lemma closed_setFinal (hclosed : graph.Closed) : (graph.setFinal q).Closed where
  initial_lt := by simpa using hclosed.initial_lt
  target_lt := by simpa using hclosed.target_lt

end LexicalSelection.Graph
