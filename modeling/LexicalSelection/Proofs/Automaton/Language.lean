import LexicalSelection.Automaton.Subset
import LexicalSelection.Proofs.Order.Ascending

/-!
# The words of a graph

Two graphs are compared by the words that lead from an initial state to a final one, and nothing
else: how many states they have and how these are numbered is of no account.

* `Path` — the ways through a graph, each with its word.
* `AcceptsFrom`, `Accepts` — the words that lead from a state, or from the initial states, to a
  final state.
* `Closed` — arcs lead to states of the graph, and initial states are states of it.
* **`accepts_reverse`** — the reversed graph accepts the reversed words.
-/

namespace LexicalSelection.Graph

variable {graph : Graph} {p q r symbol : Nat} {word word' : List Nat}

/-! ## Paths -/

/-- A path through a graph: where it begins, the symbols of its arcs, and where it ends. -/
inductive Path (graph : Graph) : Nat → List Nat → Nat → Prop
  | nil (p : Nat) : Path graph p [] p
  | cons {p q r symbol : Nat} {word : List Nat} (arc : ⟨symbol, q⟩ ∈ graph.arcs p)
      (path : Path graph q word r) : Path graph p (symbol :: word) r

/-- Does some path with this word lead from the state to a final one? -/
def AcceptsFrom (graph : Graph) (p : Nat) (word : List Nat) : Prop :=
  ∃ q, graph.Path p word q ∧ graph.isFinal q = true

/-- Does some path with this word lead from an initial state to a final one? -/
def Accepts (graph : Graph) (word : List Nat) : Prop :=
  ∃ p ∈ graph.initials, graph.AcceptsFrom p word

/-- A graph whose arcs and initial states lie within it. -/
structure Closed (graph : Graph) : Prop where
  initial_lt : ∀ p ∈ graph.initials, p < graph.size
  target_lt : ∀ p, ∀ arc ∈ graph.arcs p, arc.target < graph.size

@[simp] lemma path_nil : graph.Path p [] r ↔ p = r := by
  constructor
  · rintro ⟨⟩
    rfl
  · rintro rfl
    exact Path.nil p

@[simp] lemma path_cons :
    graph.Path p (symbol :: word) r ↔ ∃ q, ⟨symbol, q⟩ ∈ graph.arcs p ∧ graph.Path q word r := by
  constructor
  · rintro ⟨⟩
    exact ⟨_, ‹_›, ‹_›⟩
  · rintro ⟨q, arc, path⟩
    exact Path.cons arc path

/-- A path for two words leads through a state between them. -/
lemma path_append :
    graph.Path p (word ++ word') r ↔ ∃ q, graph.Path p word q ∧ graph.Path q word' r := by
  induction word generalizing p with
  | nil => simp
  | cons symbol word ih =>
      simp only [List.cons_append, path_cons, ih]
      constructor
      · rintro ⟨q, arc, s, path, path'⟩
        exact ⟨s, ⟨q, arc, path⟩, path'⟩
      · rintro ⟨s, ⟨q, arc, path⟩, path'⟩
        exact ⟨q, arc, s, path, path'⟩

@[simp] lemma acceptsFrom_nil : graph.AcceptsFrom p [] ↔ graph.isFinal p = true := by
  simp [AcceptsFrom]

@[simp] lemma acceptsFrom_cons : graph.AcceptsFrom p (symbol :: word) ↔
    ∃ q, ⟨symbol, q⟩ ∈ graph.arcs p ∧ graph.AcceptsFrom q word := by
  simp only [AcceptsFrom, path_cons]
  constructor
  · rintro ⟨r, ⟨q, arc, path⟩, hfinal⟩
    exact ⟨q, arc, r, path, hfinal⟩
  · rintro ⟨q, arc, r, path, hfinal⟩
    exact ⟨r, ⟨q, arc, path⟩, hfinal⟩

/-- Two words in a row are accepted when a path for the first one leads to where the second one
is. -/
lemma acceptsFrom_append : graph.AcceptsFrom p (word ++ word') ↔
    ∃ q, graph.Path p word q ∧ graph.AcceptsFrom q word' := by
  simp only [AcceptsFrom, path_append]
  constructor
  · rintro ⟨r, ⟨q, path, path'⟩, hfinal⟩
    exact ⟨q, path, r, path', hfinal⟩
  · rintro ⟨q, path, r, path', hfinal⟩
    exact ⟨r, ⟨q, path, path'⟩, hfinal⟩

/-! ## States that a graph has -/

lemma mem_arcs {arc : Arc} :
    arc ∈ graph.arcs p ↔ ∃ node, graph.nodes[p]? = some node ∧ arc ∈ node.arcs := by
  cases h : graph.nodes[p]? <;> simp [arcs, h]

lemma isFinal_iff :
    graph.isFinal p = true ↔ ∃ node, graph.nodes[p]? = some node ∧ node.final = true := by
  cases h : graph.nodes[p]? <;> simp [isFinal, h]

/-- Only states of the graph have arcs. -/
lemma lt_size_of_mem_arcs {arc : Arc} (h : arc ∈ graph.arcs p) : p < graph.size := by
  obtain ⟨node, hnode, -⟩ := mem_arcs.1 h
  exact (List.getElem?_eq_some_iff.1 hnode).1

/-- Only states of the graph are final. -/
lemma lt_size_of_isFinal (h : graph.isFinal p = true) : p < graph.size := by
  obtain ⟨node, hnode, -⟩ := isFinal_iff.1 h
  exact (List.getElem?_eq_some_iff.1 hnode).1

@[simp] lemma mem_finals : p ∈ graph.finals ↔ graph.isFinal p = true := by
  simp only [finals, List.mem_filter, List.mem_range, and_iff_right_iff_imp]
  exact lt_size_of_isFinal

/-! ## Reversal -/

/-- The arcs into a state are those that lead to it, turned round. -/
lemma mem_arcsInto : ⟨symbol, q⟩ ∈ graph.arcsInto p ↔ ⟨symbol, p⟩ ∈ graph.arcs q := by
  simp only [arcsInto, Ascending.mem_ofList, List.mem_flatMap, List.mem_map, List.mem_filter,
    mem_arcs, Prod.exists, List.mk_mem_zipIdx_iff_getElem?, Arc.mk.injEq, decide_eq_true_eq]
  constructor
  · rintro ⟨node, source, hnode, arc, ⟨harc, htarget⟩, hsymbol, rfl⟩
    exact ⟨node, hnode, by simpa [← htarget, ← hsymbol] using harc⟩
  · rintro ⟨node, hnode, harc⟩
    exact ⟨node, q, hnode, ⟨symbol, p⟩, ⟨harc, rfl⟩, rfl, rfl⟩

@[simp] lemma size_reverse : graph.reverse.size = graph.size := by
  simp [reverse, size]

/-- In the reversed graph a state has the arcs into it, and is final when it was initial. -/
lemma nodes_reverse (h : p < graph.size) : graph.reverse.nodes[p]?
    = some { arcs := graph.arcsInto p, final := graph.initials.contains p } := by
  simp [reverse, h]

lemma nodes_reverse_eq_none (h : ¬ p < graph.size) : graph.reverse.nodes[p]? = none := by
  simp [reverse, h]

/-- Reversing a closed graph turns each of its arcs round. -/
lemma mem_arcs_reverse (hclosed : graph.Closed) :
    ⟨symbol, q⟩ ∈ graph.reverse.arcs p ↔ ⟨symbol, p⟩ ∈ graph.arcs q := by
  by_cases h : p < graph.size
  · rw [mem_arcs, nodes_reverse h]
    simp [mem_arcsInto]
  · rw [mem_arcs, nodes_reverse_eq_none h]
    simp only [reduceCtorEq, false_and, exists_false, false_iff]
    exact fun harc => h (hclosed.target_lt q _ harc)

/-- The initial states of a closed graph become the final ones. -/
lemma isFinal_reverse (hclosed : graph.Closed) :
    graph.reverse.isFinal p = true ↔ p ∈ graph.initials := by
  by_cases h : p < graph.size
  · rw [isFinal_iff, nodes_reverse h]
    simp
  · rw [isFinal_iff, nodes_reverse_eq_none h]
    simp only [reduceCtorEq, false_and, exists_false, false_iff]
    exact fun hp => h (hclosed.initial_lt p hp)

/-- The reversed graph is closed. -/
lemma closed_reverse (hclosed : graph.Closed) : graph.reverse.Closed where
  initial_lt p hp := by
    rw [size_reverse]
    exact lt_size_of_isFinal (mem_finals.1 hp)
  target_lt p arc harc := by
    rw [size_reverse]
    exact lt_size_of_mem_arcs ((mem_arcs_reverse hclosed).1 harc)

/-- Paths are turned round with their words. -/
lemma path_reverse (hclosed : graph.Closed) :
    graph.reverse.Path p word.reverse q ↔ graph.Path q word p := by
  induction word generalizing q with
  | nil => simp [eq_comm]
  | cons symbol word ih =>
      simp only [List.reverse_cons, path_append, path_cons, path_nil, ih, exists_eq_right,
        mem_arcs_reverse hclosed]
      exact exists_congr fun _ => and_comm

/-- **The reversed graph accepts the reversed words.** -/
lemma accepts_reverse (hclosed : graph.Closed) :
    graph.reverse.Accepts word ↔ graph.Accepts word.reverse := by
  have hword : word = word.reverse.reverse := by simp
  simp only [Accepts, AcceptsFrom]
  conv_lhs => rw [hword]
  simp only [path_reverse hclosed, isFinal_reverse hclosed]
  constructor
  · rintro ⟨p, hp, q, path, hq⟩
    exact ⟨q, hq, p, path, mem_finals.1 hp⟩
  · rintro ⟨q, hq, p, path, hp⟩
    exact ⟨p, mem_finals.2 hp, q, path, hq⟩

end LexicalSelection.Graph
