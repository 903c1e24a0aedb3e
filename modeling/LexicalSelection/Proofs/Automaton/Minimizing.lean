import LexicalSelection.Proofs.Automaton.Building
import LexicalSelection.Proofs.Automaton.Running

/-!
# A graph runs like the smallest graph for it

A run offers one symbol or several at each step, so it follows many words at once.  It still ends in
a final state of a graph just when it ends in one of the smallest graph: both know the same words,
and a run follows a choice of offered symbols without asking which states it goes through.

* `Graph.Built` — the graphs that the building steps lead to.
* `Automaton.Offer`, `Automaton.run` — what a step offers, and where the steps lead.
* `endsFinal_iff` — a run ends in a final state when it could have followed an accepted word.
* **`endsFinal_minimize`** — every run over a graph ends like the run over the smallest graph.
-/

namespace LexicalSelection

namespace Graph

/-! ## Graphs built step by step -/

/-- The graphs that the building steps lead to, when arcs and final states are only asked for
between states that are there. -/
inductive Built : Graph → Prop
  | start : Built .start
  | addState {graph : Graph} (h : Built graph) : Built graph.addState.2
  | addArc {graph : Graph} (h : Built graph) {source : Nat} (hsource : source < graph.size)
      (symbol : Nat) : Built (graph.addArc source symbol).2
  | link {graph : Graph} (h : Built graph) {source target : Nat} (hsource : source < graph.size)
      (htarget : target < graph.size) (symbol : Nat) : Built (graph.link source target symbol)
  | setFinal {graph : Graph} (h : Built graph) {state : Nat} (hstate : state < graph.size) :
      Built (graph.setFinal state)

lemma closed_start : Graph.start.Closed where
  initial_lt p hp := by
    rw [List.mem_singleton.1 hp]
    exact Nat.one_pos
  target_lt p arc harc := by
    cases p <;> simp [start, arcs] at harc

lemma closed_addState {graph : Graph} (hclosed : graph.Closed) : graph.addState.2.Closed where
  initial_lt p hp := by
    rw [size_addState]
    exact Nat.lt_succ_of_lt (hclosed.initial_lt p hp)
  target_lt p arc harc := by
    rw [arcs_addState] at harc
    rw [size_addState]
    exact Nat.lt_succ_of_lt (hclosed.target_lt p arc harc)

/-- The arcs that leave each state are in ascending order. -/
def Sorted (graph : Graph) : Prop := ∀ p, Ascending.Strict (graph.arcs p)

/-- Linking two states keeps the arcs in order. -/
lemma sorted_link {graph : Graph} (hsorted : graph.Sorted) (source target symbol : Nat) :
    (graph.link source target symbol).Sorted := by
  intro p
  by_cases hp : p = source
  · have hstrict := hsorted p
    subst hp
    rw [arcs] at hstrict ⊢
    simp only [link, List.getElem?_modify_eq]
    cases hnode : graph.nodes[p]? with
    | none => exact List.Pairwise.nil
    | some node =>
        rw [hnode] at hstrict
        exact Ascending.strict_insert hstrict
  · rw [arcs_link_of_ne hp]
    exact hsorted p

lemma sorted_addState {graph : Graph} (hsorted : graph.Sorted) : graph.addState.2.Sorted := by
  intro p
  rw [arcs_addState]
  exact hsorted p

/-- Building never leads out of the graph, keeps arcs in order and starts in state 0. -/
lemma Built.spec {graph : Graph} (h : graph.Built) :
    graph.Closed ∧ graph.Sorted ∧ graph.initials = [0] := by
  induction h with
  | start =>
      refine ⟨closed_start, fun p => ?_, rfl⟩
      cases p <;> simp [Graph.start, arcs, Ascending.Strict]
  | addState _ ih =>
      obtain ⟨hclosed, hsorted, hinitials⟩ := ih
      exact ⟨closed_addState hclosed, sorted_addState hsorted, hinitials⟩
  | addArc _ hsource symbol ih =>
      obtain ⟨hclosed, hsorted, hinitials⟩ := ih
      exact ⟨closed_addArc hclosed hsource, sorted_link (sorted_addState hsorted) _ _ _, hinitials⟩
  | link _ hsource htarget symbol ih =>
      obtain ⟨hclosed, hsorted, hinitials⟩ := ih
      exact ⟨closed_link hclosed hsource htarget, sorted_link hsorted _ _ _, hinitials⟩
  | setFinal _ _ ih =>
      obtain ⟨hclosed, hsorted, hinitials⟩ := ih
      refine ⟨closed_setFinal hclosed, fun p => ?_, hinitials⟩
      rw [arcs_setFinal]
      exact hsorted p

end Graph

namespace Automaton

/-! ## Runs -/

/-- What a step offers: a symbol, or the own symbol of a thing, if it has one, beside a wildcard. -/
inductive Offer where
  | just (symbol : Nat)
  | either (exact : Option Nat) (wildcard : Nat)
  deriving DecidableEq, Repr

/-- The symbols that an offer lets a run take. -/
def Offer.symbols : Offer → List Nat
  | just symbol => [symbol]
  | either exact wildcard => eitherOf exact wildcard

/-- The active states after some steps from the start. -/
def run (automaton : Automaton) (offers : List Offer) : List Nat :=
  offers.foldl (fun active offer => automaton.step offer.symbols active) start

/-- Is some active state final after these steps? -/
def EndsFinal (automaton : Automaton) (offers : List Offer) : Prop :=
  ∃ state ∈ automaton.run offers, automaton.isFinal state = true

instance (automaton : Automaton) (offers : List Offer) : Decidable (automaton.EndsFinal offers) :=
  inferInstanceAs (Decidable (∃ state ∈ automaton.run offers, automaton.isFinal state = true))

lemma compare_arc_lt {arc arc' : Arc} (h : compare arc arc' = .lt) : arc.symbol ≤ arc'.symbol := by
  have hthen : (compare arc.symbol arc'.symbol).then (compare arc.target arc'.target) = .lt := h
  rcases Ordering.then_eq_lt.1 hthen with hlt | ⟨heq, -⟩
  · exact (Nat.compare_eq_lt.1 hlt).le
  · exact (Nat.compare_eq_eq.1 heq).le

/-- A graph with its arcs in order is laid out with them in order. -/
lemma ordered_ofGraph {graph : Graph} (hsorted : graph.Sorted) : (ofGraph graph).Ordered := by
  intro state
  rw [arcs_ofGraph]
  exact (hsorted state).imp compare_arc_lt

/-- **A run ends in a final state when it could have followed an accepted word.**  Such a word takes
one of the offered symbols at each step. -/
lemma endsFinal_iff {graph : Graph} (hordered : (ofGraph graph).Ordered)
    (hinitials : graph.initials = [0]) (offers : List Offer) :
    (ofGraph graph).EndsFinal offers ↔
      ∃ word, List.Forall₂ (· ∈ ·) word (offers.map Offer.symbols) ∧ graph.Accepts word := by
  have hrun : (ofGraph graph).run offers = (offers.map Offer.symbols).foldl
      (fun active symbols => (ofGraph graph).step symbols active) start := by
    rw [List.foldl_map]
    rfl
  simp only [EndsFinal, hrun, mem_foldl_step hordered (funext arcs_ofGraph), isFinal_ofGraph]
  simp only [Graph.Accepts, hinitials, Graph.AcceptsFrom, start, initial, List.mem_singleton,
    exists_eq_left]
  constructor
  · rintro ⟨q, ⟨word, hword, path⟩, hfinal⟩
    exact ⟨word, hword, q, path, hfinal⟩
  · rintro ⟨word, hword, q, path, hfinal⟩
    exact ⟨q, ⟨word, hword, path⟩, hfinal⟩

lemma forall₂_just {word : List Nat} :
    ∀ word', List.Forall₂ (· ∈ ·) word' ((word.map Offer.just).map Offer.symbols)
      ↔ word' = word := by
  induction word with
  | nil => simp
  | cons symbol word ih =>
      intro word'
      rw [List.map_cons, List.map_cons, List.forall₂_cons_right_iff]
      simp only [ih, Offer.symbols, List.mem_singleton]
      constructor
      · rintro ⟨a, u, rfl, rfl, rfl⟩
        rfl
      · rintro rfl
        exact ⟨symbol, word, rfl, rfl, rfl⟩

/-- The smallest graph is laid out with its arcs in order. -/
lemma ordered_ofGraph_minimize {graph : Graph} (hclosed : graph.Closed) :
    (ofGraph graph.minimize).Ordered :=
  ordered_ofGraph_determinize
    (Graph.closed_reverse (Graph.closed_determinize (Graph.closed_reverse hclosed)))

/-- **A graph runs like the smallest graph for it.**  Whatever the steps of a run offer, it ends
with a final state active in a graph just when it does in the smallest graph.  When each step offers
one symbol, it does so in both just when the graph accepts the word. -/
theorem endsFinal_minimize (graph : Graph) (h : graph.Built) :
    (∀ offers : List Offer,
      (ofGraph graph).EndsFinal offers ↔ (ofGraph graph.minimize).EndsFinal offers) ∧
    ∀ word : List Nat,
      ((ofGraph graph).EndsFinal (word.map .just) ↔ graph.Accepts word) ∧
      ((ofGraph graph.minimize).EndsFinal (word.map .just) ↔ graph.Accepts word) := by
  obtain ⟨hclosed, hsorted, hinitials⟩ := h.spec
  have hgraph := endsFinal_iff (ordered_ofGraph hsorted) hinitials
  have hstart : graph.minimize.initials = [0] := rfl
  have hminimal := endsFinal_iff (ordered_ofGraph_minimize hclosed) hstart
  simp only [Graph.accepts_minimize hclosed] at hminimal
  refine ⟨fun offers => ?_, fun word => ⟨?_, ?_⟩⟩
  · rw [hgraph, hminimal]
  · rw [hgraph]
    simp only [forall₂_just, exists_eq_left]
  · rw [hminimal]
    simp only [forall₂_just, exists_eq_left]

/-- A graph with two arcs for one symbol and a loop: the step that offers 7 beside the wildcard 0
takes both the arc into the final state and the loop. -/
theorem endsFinal_minimize_loop :
    let graph := (((((Graph.start.addArc 0 5).2.addArc 0 5).2.link 1 1 0).addArc 1 7).2).setFinal 3
    let offers : List Offer := [.just 5, .either none 0, .either (some 7) 0]
    graph.Built ∧ (ofGraph graph).EndsFinal offers ∧ (ofGraph graph.minimize).EndsFinal offers ∧
      graph.Accepts [5, 0, 7] := by
  intro graph offers
  have hbuilt : graph.Built :=
    .setFinal (.addArc (.link (.addArc (.addArc .start (by decide) 5) (by decide) 5) (by decide)
      (by decide) 0) (by decide) 7) (by decide)
  have hends : (ofGraph graph).EndsFinal offers := by decide +kernel
  have hword : (ofGraph graph).EndsFinal ([5, 0, 7].map .just) := by decide +kernel
  obtain ⟨hruns, hwords⟩ := endsFinal_minimize graph hbuilt
  exact ⟨hbuilt, hends, (hruns offers).1 hends, (hwords [5, 0, 7]).1.1 hword⟩

end Automaton

end LexicalSelection
