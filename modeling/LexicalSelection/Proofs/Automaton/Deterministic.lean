import LexicalSelection.Proofs.Automaton.SubsetConstruction
import Mathlib.Data.List.Pairwise

/-!
# Deterministic graphs

In a deterministic graph a word leads from the initial state to one state at most.  Turned round,
this says that a word leads to the initial state from one state at most, and so sets of states of
the reversed graph are told apart by the words that lead from their members to a final state.

* `Deterministic` — one initial state, and one arc at most for each symbol.
* `Reachable` — every state is the end of a path from an initial state.
* `Separated` — from every state some word is accepted, and no word from two of them.
* **`deterministic_determinize`**, **`reachable_determinize`** — what the subset construction makes.
* **`separated_reverse`** — a deterministic graph is separated when it is turned round.
* **`Separated.eq_of_sameWords`** — different sets of states of a separated graph accept different
  words.
-/

namespace LexicalSelection.Graph

variable {graph : Graph} {p q r symbol : Nat} {word word' : List Nat} {subset subset' : List Nat}

/-- One initial state, and from each state one arc at most for each symbol. -/
structure Deterministic (graph : Graph) : Prop where
  initial : ∃ p, ∀ q, q ∈ graph.initials ↔ q = p
  target_unique : ∀ p symbol q r, ⟨symbol, q⟩ ∈ graph.arcs p → ⟨symbol, r⟩ ∈ graph.arcs p → q = r

/-- Every state is the end of a path from an initial state. -/
def Reachable (graph : Graph) : Prop :=
  ∀ q < graph.size, ∃ p ∈ graph.initials, ∃ word, graph.Path p word q

/-- From every state some word is accepted, and no word is accepted from two states. -/
structure Separated (graph : Graph) : Prop where
  live : ∀ p < graph.size, ∃ word, graph.AcceptsFrom p word
  apart : ∀ p q word, graph.AcceptsFrom p word → graph.AcceptsFrom q word → p = q

/-! ## Paths in a deterministic graph -/

/-- **A word leads to one state at most.** -/
lemma Deterministic.path_unique (h : graph.Deterministic) (hq : graph.Path p word q)
    (hr : graph.Path p word r) : q = r := by
  induction word generalizing p with
  | nil => exact (path_nil.1 hq).symm.trans (path_nil.1 hr)
  | cons symbol word ih =>
      obtain ⟨s, harc, path⟩ := path_cons.1 hq
      obtain ⟨t, harc', path'⟩ := path_cons.1 hr
      obtain rfl := h.target_unique p symbol s t harc harc'
      exact ih path path'

/-- Behind a path from the initial state, what is accepted is what continues its word. -/
lemma Deterministic.acceptsFrom_iff (h : graph.Deterministic) (hp : p ∈ graph.initials)
    (path : graph.Path p word q) :
    graph.AcceptsFrom q word' ↔ graph.Accepts (word ++ word') := by
  constructor
  · intro haccepts
    exact ⟨p, hp, acceptsFrom_append.2 ⟨q, path, haccepts⟩⟩
  · rintro ⟨p', hp', haccepts⟩
    obtain ⟨initial, hinitial⟩ := h.initial
    obtain rfl : p' = p := ((hinitial p').1 hp').trans ((hinitial p).1 hp).symm
    obtain ⟨q', path', haccepts⟩ := acceptsFrom_append.1 haccepts
    obtain rfl := h.path_unique path path'
    exact haccepts

/-! ## The subset construction -/

lemma target_unique_of_pairwise {arcs : List Arc}
    (h : arcs.Pairwise fun arc arc' => arc.symbol < arc'.symbol) (hq : ⟨symbol, q⟩ ∈ arcs)
    (hr : ⟨symbol, r⟩ ∈ arcs) : q = r := by
  have hsymm : Std.Symm fun arc arc' : Arc => arc.symbol ≠ arc'.symbol := ⟨fun _ _ hne => hne.symm⟩
  by_contra hne
  have hdifferent : (⟨symbol, q⟩ : Arc) ≠ ⟨symbol, r⟩ := fun heq => hne (Arc.mk.inj heq).2
  exact (h.imp Nat.ne_of_lt).forall hq hr hdifferent rfl

/-- **The subset construction makes a deterministic graph.** -/
lemma deterministic_determinize (hclosed : graph.Closed) : graph.determinize.Deterministic where
  initial := ⟨0, fun q => by simp [determinize]⟩
  target_unique p symbol q r hq hr := by
    obtain ⟨node, hnode, hq⟩ := mem_arcs.1 hq
    have hr : ⟨symbol, r⟩ ∈ node.arcs := by simpa [arcs, hnode] using hr
    have hpairwise := pairwise_arcs_determinize hclosed (List.mem_of_getElem? hnode)
    exact target_unique_of_pairwise hpairwise hq hr

/-- Every set that is found has a number, and a path leads to the state with that number. -/
lemma exists_path_of_found {known : List (List Nat)}
    (hstart : known[0]? = some (Ascending.ofList graph.initials)) (hnodup : known.Nodup)
    (hstates : List.Forall₂ (graph.StandsFor known) known graph.determinize.nodes)
    (h : graph.Found subset) :
    ∃ i word, known[i]? = some subset ∧ graph.determinize.Path 0 word i := by
  induction h with
  | start => exact ⟨0, [], hstart, .nil 0⟩
  | @move subset targets symbol _ hmove ih =>
      obtain ⟨i, word, hi, path⟩ := ih
      obtain ⟨node, hnode, hstands⟩ := standsFor_of_getElem? hstates hi
      obtain ⟨j, hj⟩ := hstands.exists_number hmove
      have harc : ⟨symbol, j⟩ ∈ graph.determinize.arcs i :=
        mem_arcs.2 ⟨node, hnode, (hstands.mem_arcs hnodup hj).2 hmove⟩
      exact ⟨j, word ++ [symbol], hj, path_append.2 ⟨i, path, .cons harc (.nil j)⟩⟩

/-- **Every state of the deterministic graph is reachable**, since only sets that are found become
states. -/
lemma reachable_determinize (hclosed : graph.Closed) : graph.determinize.Reachable := by
  intro i hi
  obtain ⟨known, hstart, hknown, hfound, hstates⟩ := exists_found_determinize hclosed
  have hlt : i < known.length := hstates.length_eq ▸ hi
  obtain ⟨j, word, hj, path⟩ :=
    exists_path_of_found hstart hknown.nodup hstates (hfound _ (List.getElem_mem hlt))
  obtain rfl : i = j := (List.getElem?_inj hlt hknown.nodup).1
    ((List.getElem?_eq_getElem hlt).trans hj.symm)
  exact ⟨0, List.mem_singleton_self 0, word, path⟩

/-! ## Turning a deterministic graph round -/

/-- **A deterministic graph is separated when it is turned round**: paths to its final states are
paths from the initial state of the graph. -/
lemma separated_reverse (hclosed : graph.Closed) (hdeterministic : graph.Deterministic)
    (hreachable : graph.Reachable) : graph.reverse.Separated where
  live p hp := by
    rw [size_reverse] at hp
    obtain ⟨q, hq, word, path⟩ := hreachable p hp
    exact ⟨word.reverse, q, (path_reverse hclosed).2 path, (isFinal_reverse hclosed).2 hq⟩
  apart p q word hp hq := by
    obtain ⟨p', path, hp'⟩ := hp
    obtain ⟨q', path', hq'⟩ := hq
    rw [isFinal_reverse hclosed] at hp' hq'
    rw [← word.reverse_reverse, path_reverse hclosed] at path path'
    obtain ⟨initial, hinitial⟩ := hdeterministic.initial
    obtain rfl : p' = q' := ((hinitial p').1 hp').trans ((hinitial q').1 hq').symm
    exact hdeterministic.path_unique path path'

/-- The graph that is determinized last is separated. -/
lemma separated_reverse_determinize (hclosed : graph.Closed) :
    graph.determinize.reverse.Separated :=
  separated_reverse (closed_determinize hclosed) (deterministic_determinize hclosed)
    (reachable_determinize hclosed)

/-! ## Words of sets -/

/-- Is the word accepted from some state of the set? -/
def AcceptsFromSome (graph : Graph) (subset word : List Nat) : Prop :=
  ∃ p ∈ subset, graph.AcceptsFrom p word

lemma acceptsFromSome_nil : graph.AcceptsFromSome subset [] ↔ subset.any graph.isFinal = true := by
  simp [AcceptsFromSome]

lemma acceptsFromSome_cons : graph.AcceptsFromSome subset (symbol :: word) ↔
    ∃ targets, (symbol, targets) ∈ graph.moves subset ∧ graph.AcceptsFromSome targets word := by
  simp only [AcceptsFromSome, acceptsFrom_cons]
  constructor
  · rintro ⟨p, hp, q, harc, haccepts⟩
    obtain ⟨targets, hmove⟩ := exists_mem_moves hp harc
    exact ⟨targets, hmove, q, ((mem_moves hmove).2 q).2 ⟨p, hp, harc⟩, haccepts⟩
  · rintro ⟨targets, hmove, q, hq, haccepts⟩
    obtain ⟨p, hp, harc⟩ := ((mem_moves hmove).2 q).1 hq
    exact ⟨p, hp, q, harc, haccepts⟩

/-- A set of states of the graph, in ascending order. -/
structure IsStateSet (graph : Graph) (subset : List Nat) : Prop where
  strict : Ascending.Strict subset
  lt_size : ∀ p ∈ subset, p < graph.size

lemma Known.isStateSet {known : List (List Nat)} (h : graph.Known known) (hmem : subset ∈ known) :
    graph.IsStateSet subset :=
  ⟨h.strict subset hmem, h.lt_size subset hmem⟩

lemma isStateSet_of_mem_moves (hclosed : graph.Closed) {targets : List Nat}
    (h : (symbol, targets) ∈ graph.moves subset) : graph.IsStateSet targets where
  strict := (mem_moves h).1
  lt_size q hq := by
    obtain ⟨p, -, harc⟩ := ((mem_moves h).2 q).1 hq
    exact hclosed.target_lt p _ harc

lemma Separated.exists_acceptsFromSome (h : graph.Separated) (hset : graph.IsStateSet subset)
    (hne : subset ≠ []) : ∃ word, graph.AcceptsFromSome subset word := by
  obtain ⟨p, hp⟩ := List.exists_mem_of_ne_nil subset hne
  obtain ⟨word, haccepts⟩ := h.live p (hset.lt_size p hp)
  exact ⟨word, p, hp, haccepts⟩

/-- A member of a set is known by any word that is accepted from it. -/
lemma Separated.mem_iff (h : graph.Separated) (haccepts : graph.AcceptsFrom p word) :
    p ∈ subset ↔ graph.AcceptsFromSome subset word := by
  constructor
  · exact fun hp => ⟨p, hp, haccepts⟩
  · rintro ⟨q, hq, haccepts'⟩
    rwa [h.apart p q word haccepts haccepts']

/-- **Sets with the same words are the same.** -/
lemma Separated.eq_of_sameWords (h : graph.Separated) (hset : graph.IsStateSet subset)
    (hset' : graph.IsStateSet subset')
    (hwords : ∀ word, graph.AcceptsFromSome subset word ↔ graph.AcceptsFromSome subset' word) :
    subset = subset' := by
  have hmem : ∀ p < graph.size, p ∈ subset ↔ p ∈ subset' := by
    intro p hp
    obtain ⟨word, haccepts⟩ := h.live p hp
    rw [h.mem_iff haccepts, h.mem_iff haccepts, hwords]
  refine Ascending.eq_of_mem_iff hset.strict hset'.strict fun p => ⟨fun hp => ?_, fun hp => ?_⟩
  · exact (hmem p (hset.lt_size p hp)).1 hp
  · exact (hmem p (hset'.lt_size p hp)).2 hp

end LexicalSelection.Graph
