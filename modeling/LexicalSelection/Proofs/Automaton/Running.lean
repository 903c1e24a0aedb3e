import LexicalSelection.Automaton.Basic
import LexicalSelection.Proofs.Automaton.SubsetConstruction
import Mathlib.Algebra.Ring.Nat
import Mathlib.Data.List.TakeWhile

/-!
# Running an automaton

An automaton keeps the arcs of a graph in one table.  Where a run can be after some steps, in each
of which several symbols are offered, is said by the paths of the graph.

* `arcs_ofGraph`, `isFinal_ofGraph` — the layout loses nothing.
* `mem_targets` — arcs in the order of their symbols are found by their symbol.
* **`mem_foldl_step`** — the active states are the ends of the paths with one of the offered symbols
  at each step.
-/

namespace LexicalSelection.Automaton

variable {graph : Graph} {automaton : Automaton} {p q symbol : Nat}

/-! ## Layout -/

/-- The arcs of a state begin behind those of all states before it. -/
lemma getElem?_runningSums (total : Nat) {i : Nat} {ns : List Nat} (h : i ≤ ns.length) :
    (runningSums total ns)[i]? = some (total + (ns.take i).sum) := by
  induction ns generalizing total i with
  | nil => simp_all [runningSums]
  | cons n ns ih =>
      cases i with
      | zero => simp [runningSums]
      | succ i => simp [runningSums, ih _ (Nat.le_of_succ_le_succ h), Nat.add_assoc]

lemma length_runningSums (total : Nat) (ns : List Nat) :
    (runningSums total ns).length = ns.length + 1 := by
  induction ns generalizing total with
  | nil => rfl
  | cons n ns ih => simp [runningSums, ih]

/-- Dropping the arcs of the first states leaves those of the others. -/
lemma drop_flatMap_arcs (nodes : List Node) (i : Nat) :
    (nodes.flatMap Node.arcs).drop ((nodes.map (·.arcs.length)).take i).sum
      = (nodes.drop i).flatMap Node.arcs := by
  induction nodes generalizing i with
  | nil => simp
  | cons node nodes ih =>
      cases i with
      | zero => simp
      | succ i => simp [← List.drop_drop, ih]

/-- **A graph that is laid out keeps its arcs.** -/
@[simp] lemma arcs_ofGraph (state : Nat) : (ofGraph graph).arcs state = graph.arcs state := by
  simp only [arcs, Graph.arcs, ofGraph]
  by_cases h : state < graph.nodes.length
  · have hlength : (graph.nodes.map (·.arcs.length)).length = graph.nodes.length :=
      List.length_map _
    have hfirst := getElem?_runningSums 0 (hlength ▸ h.le)
    have hbehind := getElem?_runningSums 0 (hlength ▸ Nat.succ_le_of_lt h)
    rw [hfirst, hbehind, List.getElem?_eq_getElem h]
    simp only [Nat.zero_add, drop_flatMap_arcs, List.drop_eq_getElem_cons h, List.flatMap_cons]
    simp [List.take_add_one, h]
  · have hnone : (runningSums 0 (graph.nodes.map (·.arcs.length)))[state + 1]? = none := by
      rw [List.getElem?_eq_none_iff, length_runningSums, List.length_map]
      omega
    rw [hnone, List.getElem?_eq_none_iff.2 (Nat.le_of_not_lt h)]
    split <;> simp_all

@[simp] lemma isFinal_ofGraph (state : Nat) :
    (ofGraph graph).isFinal state = graph.isFinal state := by
  simp [isFinal, Graph.isFinal, ofGraph]

@[simp] lemma size_ofGraph : (ofGraph graph).size = graph.size := by
  simp [size, ofGraph, Graph.size]

@[simp] lemma arcs_withFinals (states : List Nat) (state : Nat) :
    (automaton.withFinals states).arcs state = automaton.arcs state := rfl

/-- The states that are asked for are final then, if the automaton has them. -/
lemma isFinal_withFinals {states : List Nat} {state : Nat} :
    (automaton.withFinals states).isFinal state = true
      ↔ state < automaton.size ∧ state ∈ states := by
  by_cases h : state < automaton.size <;> simp [isFinal, withFinals, h]

/-! ## Steps -/

/-- The arcs that leave a state come in the order of their symbols. -/
def Ordered (automaton : Automaton) : Prop :=
  ∀ state, (automaton.arcs state).Pairwise fun arc arc' => arc.symbol ≤ arc'.symbol

/-- In a row in order the arcs for a symbol stand together. -/
lemma takeWhile_dropWhile_eq_filter {arcs : List Arc}
    (h : arcs.Pairwise fun arc arc' => arc.symbol ≤ arc'.symbol) :
    (arcs.dropWhile (·.symbol < symbol)).takeWhile (·.symbol = symbol)
      = arcs.filter (·.symbol = symbol) := by
  induction arcs with
  | nil => rfl
  | cons arc arcs ih =>
      obtain ⟨hle, harcs⟩ := List.pairwise_cons.1 h
      rcases Nat.lt_trichotomy arc.symbol symbol with hlt | heq | hgt
      · simp [hlt, hlt.ne, ih harcs]
      · -- the smaller arcs are behind, so nothing more is dropped
        have hdrop : arcs.dropWhile (·.symbol < symbol) = arcs := by
          rw [List.dropWhile_eq_self_iff]
          intro hlen
          simpa [← heq] using hle _ (List.getElem_mem hlen)
        simp [heq, ← ih harcs, hdrop]
      · have hnone : arcs.filter (·.symbol = symbol) = [] := by
          rw [List.filter_eq_nil_iff]
          intro arc' harc'
          simpa using (hgt.trans_le (hle arc' harc')).ne'
        simp [hgt.ne', Nat.lt_asymm hgt, hnone]

/-- The arcs for a symbol are found when the arcs of each state are in order. -/
lemma mem_targets (h : automaton.Ordered) :
    q ∈ automaton.targets p symbol ↔ ⟨symbol, q⟩ ∈ automaton.arcs p := by
  rw [targets, takeWhile_dropWhile_eq_filter (h p)]
  simp only [List.mem_map, List.mem_filter, decide_eq_true_eq]
  constructor
  · rintro ⟨⟨symbol, q⟩, ⟨harc, rfl⟩, rfl⟩
    exact harc
  · exact fun harc => ⟨_, ⟨harc, rfl⟩, rfl⟩

/-- A step leads from an active state along an arc for an offered symbol. -/
lemma mem_step {offered active : List Nat} (h : automaton.Ordered) :
    q ∈ automaton.step offered active
      ↔ ∃ p ∈ active, ∃ symbol ∈ offered, ⟨symbol, q⟩ ∈ automaton.arcs p := by
  simp [step, mem_targets h]

/-- **The active states are the ends of paths.**  A path takes one of the offered symbols at each
step. -/
lemma mem_foldl_step {offered : List (List Nat)} {active : List Nat} (h : automaton.Ordered)
    (harcs : automaton.arcs = graph.arcs) :
    q ∈ offered.foldl (fun active symbols => automaton.step symbols active) active
      ↔ ∃ p ∈ active, ∃ word, List.Forall₂ (· ∈ ·) word offered ∧ graph.Path p word q := by
  induction offered generalizing active with
  | nil => simp
  | cons symbols offered ih =>
      simp only [List.foldl_cons, ih, mem_step h, harcs, List.forall₂_cons_right_iff]
      constructor
      · rintro ⟨r, ⟨p, hp, symbol, hsymbol, harc⟩, word, hword, path⟩
        exact ⟨p, hp, symbol :: word, ⟨symbol, word, hsymbol, hword, rfl⟩, .cons harc path⟩
      · rintro ⟨p, hp, _, ⟨symbol, word, hsymbol, hword, rfl⟩, path⟩
        obtain ⟨r, harc, path⟩ := Graph.path_cons.1 path
        exact ⟨r, ⟨p, hp, symbol, hsymbol, harc⟩, word, hword, path⟩

/-- The arcs of a deterministic graph are in order. -/
lemma ordered_ofGraph_determinize (hclosed : graph.Closed) :
    (ofGraph graph.determinize).Ordered := by
  intro state
  rw [arcs_ofGraph, Graph.arcs]
  cases hnode : graph.determinize.nodes[state]? with
  | none => exact List.Pairwise.nil
  | some node =>
      exact (Graph.pairwise_arcs_determinize hclosed (List.mem_of_getElem? hnode)).imp Nat.le_of_lt

end LexicalSelection.Automaton
