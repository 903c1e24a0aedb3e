import LexicalSelection.Proofs.Automaton.Deterministic
import LexicalSelection.Proofs.Automaton.Minimizing
import Mathlib.Data.Fintype.EquivFin

/-!
# The smallest automaton is the smallest

No state of the smallest automaton could be left out or merged with another one: each is reached
from the start, leads to a final state, and continues with words of its own.

* `exists_acceptsFrom_of_arc` — an arc of the last subset construction leads to a state from which
  some word is accepted.
* `eq_of_acceptsFrom_iff` — states of it that accept the same words are the same.
* **`size_le_of_deterministic`** — a graph with such states has no more of them than any other
  deterministic graph with the same words.
* `Automaton.follow`, `Automaton.Continues` — where a word leads from a state, and whether it is
  accepted there.
* **`ofGraph_minimize_minimal`** — all of this for the smallest automaton as it is run.
-/

namespace LexicalSelection

namespace Graph

variable {graph other : Graph} {p q i j symbol : Nat} {word : List Nat}

/-! ## Words that are accepted from a state -/

lemma lt_size_of_acceptsFrom (h : graph.AcceptsFrom p word) : p < graph.size := by
  cases word with
  | nil => exact lt_size_of_isFinal (acceptsFrom_nil.1 h)
  | cons symbol word =>
      obtain ⟨q, harc, -⟩ := acceptsFrom_cons.1 h
      exact lt_size_of_mem_arcs harc

/-- A path that leads away comes in by an arc. -/
lemma Path.exists_arc (h : graph.Path p word q) (hne : p ≠ q) :
    ∃ r symbol, ⟨symbol, q⟩ ∈ graph.arcs r := by
  induction h with
  | nil p => exact absurd rfl hne
  | @cons p r q symbol word arc _ ih =>
      by_cases hr : r = q
      · exact ⟨p, symbol, hr ▸ arc⟩
      · exact ih hr

section Separated

variable (hclosed : graph.Closed) (hseparated : graph.Separated)
include hclosed hseparated

/-- An arc of the deterministic graph leads to a state from which some word is accepted. -/
lemma exists_acceptsFrom_of_arc (harc : ⟨symbol, q⟩ ∈ graph.determinize.arcs p) :
    ∃ word, graph.determinize.AcceptsFrom q word := by
  obtain ⟨known, -, hknown, hstates⟩ := exists_standsFor_determinize hclosed
  obtain ⟨node, hnode, harc⟩ := mem_arcs.1 harc
  obtain ⟨subset, -, hstands⟩ := exists_standsFor hstates hnode
  obtain ⟨targets, htargets, hmove⟩ := hstands.exists_targets harc
  obtain ⟨word, haccepts⟩ := hseparated.exists_acceptsFromSome
    (isStateSet_of_mem_moves hclosed hmove) (ne_nil_of_mem_moves hmove)
  exact ⟨word, (acceptsFrom_determinize hstates hknown.nodup htargets).2 haccepts⟩

/-- **States from which the same words are accepted are the same**, since they stand for sets with
the same words. -/
lemma eq_of_acceptsFrom_iff (hi : i < graph.determinize.size) (hj : j < graph.determinize.size)
    (h : ∀ word, graph.determinize.AcceptsFrom i word ↔ graph.determinize.AcceptsFrom j word) :
    i = j := by
  obtain ⟨known, -, hknown, hstates⟩ := exists_standsFor_determinize hclosed
  have hsize : known.length = graph.determinize.size := hstates.length_eq
  have hi' := List.getElem?_eq_getElem (hsize ▸ hi)
  have hj' := List.getElem?_eq_getElem (hsize ▸ hj)
  have hsubsets : known[i] = known[j] := by
    refine hseparated.eq_of_sameWords (hknown.isStateSet (List.getElem_mem _))
      (hknown.isStateSet (List.getElem_mem _)) fun word => ?_
    exact (acceptsFrom_determinize hstates hknown.nodup hi').symm.trans
      ((h word).trans (acceptsFrom_determinize hstates hknown.nodup hj'))
  refine (List.getElem?_inj (hsize ▸ hi) hknown.nodup).1 ?_
  rw [hi', hj', hsubsets]

/-- From every state some word is accepted, unless there is no word at all. -/
lemma exists_acceptsFrom_determinize (hsome : ∃ word, graph.Accepts word)
    (hi : i < graph.determinize.size) : ∃ word, graph.determinize.AcceptsFrom i word := by
  obtain ⟨p, hp, word, path⟩ := reachable_determinize hclosed i hi
  obtain rfl := List.mem_singleton.1 hp
  by_cases hzero : 0 = i
  · obtain ⟨word, haccepts⟩ := hsome
    obtain ⟨p, hp, haccepts⟩ := (accepts_determinize hclosed).2 haccepts
    obtain rfl := List.mem_singleton.1 hp
    exact ⟨word, hzero ▸ haccepts⟩
  · obtain ⟨r, symbol, harc⟩ := path.exists_arc hzero
    exact exists_acceptsFrom_of_arc hclosed hseparated harc

/-- A graph without words leaves one state that is not final and has no arcs. -/
lemma nodes_determinize_of_empty (hnone : ∀ word, ¬ graph.Accepts word) :
    graph.determinize.nodes = [{}] := by
  have hstart : ∀ word, ¬ graph.determinize.AcceptsFrom 0 word := fun word haccepts =>
    hnone word ((accepts_determinize hclosed).1 ⟨0, List.mem_singleton_self 0, haccepts⟩)
  have harcs : graph.determinize.arcs 0 = [] := by
    rw [List.eq_nil_iff_forall_not_mem]
    intro arc harc
    obtain ⟨word, haccepts⟩ := exists_acceptsFrom_of_arc hclosed hseparated harc
    exact hstart (arc.symbol :: word) (acceptsFrom_cons.2 ⟨arc.target, harc, haccepts⟩)
  -- Without arcs no path leads away from the first state, so there is no second one.
  have honly : ∀ i < graph.determinize.size, i = 0 := by
    intro i hi
    obtain ⟨p, hp, word, path⟩ := reachable_determinize hclosed i hi
    obtain rfl := List.mem_singleton.1 hp
    cases path with
    | nil => rfl
    | cons arc path => simp [harcs] at arc
  have hpositive : 0 < graph.determinize.size :=
    (closed_determinize hclosed).initial_lt 0 (List.mem_singleton_self 0)
  have hsize : graph.determinize.nodes.length = 1 := by
    by_contra hne
    have hone : 1 < graph.determinize.size := Nat.lt_of_le_of_ne hpositive (Ne.symm hne)
    exact absurd (honly 1 hone) Nat.one_ne_zero
  obtain ⟨node, hnodes⟩ := List.length_eq_one_iff.1 hsize
  have hfinal : ¬ graph.determinize.isFinal 0 = true := fun h => hstart [] (acceptsFrom_nil.2 h)
  rw [hnodes]
  simp only [arcs, isFinal, hnodes] at harcs hfinal
  obtain ⟨nodeArcs, final⟩ := node
  simp_all

end Separated

/-! ## Counting states -/

/-- **No deterministic graph with the same words has fewer states.**  A state is told by its words,
and a word that leads to it leads to a state with the same words in the other graph. -/
lemma size_le_of_deterministic (hdeterministic : graph.Deterministic) (hreachable : graph.Reachable)
    (hlive : ∀ p < graph.size, ∃ word, graph.AcceptsFrom p word)
    (hdifferent : ∀ p < graph.size, ∀ q < graph.size,
      (∀ word, graph.AcceptsFrom p word ↔ graph.AcceptsFrom q word) → p = q)
    (hother : other.Deterministic) (hwords : ∀ word, other.Accepts word ↔ graph.Accepts word) :
    graph.size ≤ other.size := by
  have hstate : ∀ p : Fin graph.size, ∃ q : Fin other.size,
      ∀ word, graph.AcceptsFrom p word ↔ other.AcceptsFrom q word := by
    intro p
    obtain ⟨start, hstart, word, path⟩ := hreachable p p.isLt
    obtain ⟨word', haccepts⟩ := hlive p p.isLt
    obtain ⟨start', hstart', haccepts'⟩ :=
      (hwords (word ++ word')).2 ((hdeterministic.acceptsFrom_iff hstart path).1 haccepts)
    obtain ⟨q, path', haccepts'⟩ := acceptsFrom_append.1 haccepts'
    refine ⟨⟨q, lt_size_of_acceptsFrom haccepts'⟩, fun more => ?_⟩
    rw [hdeterministic.acceptsFrom_iff hstart path, hother.acceptsFrom_iff hstart' path', hwords]
  choose state hsame using hstate
  have hinjective : Function.Injective state := by
    intro p q heq
    refine Fin.ext (hdifferent p p.isLt q q.isLt fun word => ?_)
    rw [hsame p, hsame q, heq]
  simpa using Fintype.card_le_of_injective state hinjective

/-! ## The smallest graph -/

section Minimized

variable (hclosed : graph.Closed)
include hclosed

/-- What is known of the graph that is determinized last. -/
lemma closed_and_separated :
    graph.reverse.determinize.reverse.Closed ∧ graph.reverse.determinize.reverse.Separated :=
  ⟨closed_reverse (closed_determinize (closed_reverse hclosed)),
    separated_reverse_determinize (closed_reverse hclosed)⟩

lemma deterministic_minimize : graph.minimize.Deterministic :=
  deterministic_determinize (closed_and_separated hclosed).1

lemma reachable_minimize : graph.minimize.Reachable :=
  reachable_determinize (closed_and_separated hclosed).1

/-- The graph that is determinized last has words just when the graph has. -/
lemma exists_accepts_iff :
    (∃ word, graph.reverse.determinize.reverse.Accepts word) ↔ ∃ word, graph.Accepts word :=
  exists_congr fun word => by
    rw [← accepts_determinize (closed_and_separated hclosed).1]
    exact accepts_minimize hclosed

lemma exists_acceptsFrom_minimize (hsome : ∃ word, graph.Accepts word)
    (hi : i < graph.minimize.size) : ∃ word, graph.minimize.AcceptsFrom i word :=
  exists_acceptsFrom_determinize (closed_and_separated hclosed).1 (closed_and_separated hclosed).2
    ((exists_accepts_iff hclosed).2 hsome) hi

lemma nodes_minimize_of_empty (hnone : ∀ word, ¬ graph.Accepts word) :
    graph.minimize.nodes = [{}] := by
  rw [← not_exists, ← exists_accepts_iff hclosed, not_exists] at hnone
  exact nodes_determinize_of_empty (closed_and_separated hclosed).1
    (closed_and_separated hclosed).2 hnone

lemma eq_of_acceptsFrom_minimize_iff (hi : i < graph.minimize.size) (hj : j < graph.minimize.size)
    (h : ∀ word, graph.minimize.AcceptsFrom i word ↔ graph.minimize.AcceptsFrom j word) : i = j :=
  eq_of_acceptsFrom_iff (closed_and_separated hclosed).1 (closed_and_separated hclosed).2 hi hj h

/-- The smallest graph has no more states than any deterministic graph with the same words, also
when there are no words at all. -/
lemma size_minimize_le (hother : other.Closed) (hdeterministic : other.Deterministic)
    (hwords : ∀ word, other.Accepts word ↔ graph.Accepts word) :
    graph.minimize.size ≤ other.size := by
  by_cases hsome : ∃ word, graph.Accepts word
  · exact size_le_of_deterministic (deterministic_minimize hclosed) (reachable_minimize hclosed)
      (fun _ hp => exists_acceptsFrom_minimize hclosed hsome hp)
      (fun _ hp _ hq => eq_of_acceptsFrom_minimize_iff hclosed hp hq) hdeterministic
      fun word => (hwords word).trans (accepts_minimize hclosed).symm
  · obtain ⟨p, hp⟩ := hdeterministic.initial
    have hlt : p < other.size := hother.initial_lt p ((hp p).2 rfl)
    rw [size, nodes_minimize_of_empty hclosed (not_exists.1 hsome), List.length_singleton]
    exact Nat.one_le_of_lt hlt

end Minimized

end Graph

namespace Automaton

open LexicalSelection.Graph

variable {graph : Graph} {p q : Nat} {word : List Nat}

/-- The active states when the symbols of a word have been taken from a state. -/
def follow (automaton : Automaton) (state : Nat) (word : List Nat) : List Nat :=
  word.foldl (fun active symbol => automaton.step [symbol] active) [state]

/-- Does the word lead from the state to a final one? -/
def Continues (automaton : Automaton) (state : Nat) (word : List Nat) : Prop :=
  ∃ q ∈ automaton.follow state word, automaton.isFinal q = true

lemma mem_follow (hordered : (ofGraph graph).Ordered) :
    q ∈ (ofGraph graph).follow p word ↔ graph.Path p word q := by
  have hfollow : (ofGraph graph).follow p word
      = ((word.map Offer.just).map Offer.symbols).foldl
        (fun active symbols => (ofGraph graph).step symbols active) [p] := by
    rw [List.foldl_map, List.foldl_map]
    rfl
  rw [hfollow, mem_foldl_step hordered (funext arcs_ofGraph)]
  simp only [forall₂_just, List.mem_singleton, exists_eq_left]

lemma continues_iff (hordered : (ofGraph graph).Ordered) :
    (ofGraph graph).Continues p word ↔ graph.AcceptsFrom p word := by
  simp only [Continues, mem_follow hordered, isFinal_ofGraph, AcceptsFrom]

/-- **The smallest automaton is the smallest.**  It accepts the words of the graph, and

* its arcs come in the order of their symbols, one for each;
* every state is reached from the start;
* from every state a final one is reached, unless the graph has no words: then one state is left,
  which is not final and has no arcs;
* different states continue with different words;
* no deterministic graph with the same words has fewer states, whether or not it has dead ends. -/
theorem ofGraph_minimize_minimal (hclosed : graph.Closed) :
    let automaton := ofGraph graph.minimize
    (∀ word, automaton.Continues initial word ↔ graph.Accepts word) ∧
    (∀ state, (automaton.arcs state).Pairwise fun arc arc' => arc.symbol < arc'.symbol) ∧
    (∀ state < automaton.size, ∃ word, state ∈ automaton.follow initial word) ∧
    ((∃ word, graph.Accepts word) →
      ∀ state < automaton.size, ∃ word, automaton.Continues state word) ∧
    ((∀ word, ¬ graph.Accepts word) →
      automaton = { offsets := [0, 0], table := [], finalFlags := [false] }) ∧
    (∀ state < automaton.size, ∀ state' < automaton.size,
      (∀ word, automaton.Continues state word ↔ automaton.Continues state' word) →
        state = state') ∧
    ∀ other : Graph, other.Closed → other.Deterministic →
      (∀ word, other.Accepts word ↔ graph.Accepts word) → automaton.size ≤ other.size := by
  intro automaton
  have hordered := ordered_ofGraph_minimize hclosed
  have hsize : automaton.size = graph.minimize.size := size_ofGraph
  have hcontinues : ∀ state word, automaton.Continues state word
      ↔ graph.minimize.AcceptsFrom state word := fun state word => continues_iff hordered
  simp only [hsize, hcontinues]
  refine ⟨fun word => ?_, fun state => ?_, fun state hstate => ?_,
    fun hsome state hstate => exists_acceptsFrom_minimize hclosed hsome hstate, fun hnone => ?_,
    fun state hstate state' hstate' => eq_of_acceptsFrom_minimize_iff hclosed hstate hstate',
    fun other hother hdeterministic hwords => size_minimize_le hclosed hother hdeterministic hwords⟩
  · rw [← accepts_minimize hclosed]
    constructor
    · exact fun h => ⟨0, List.mem_singleton_self 0, h⟩
    · rintro ⟨p, hp, h⟩
      obtain rfl : p = 0 := List.mem_singleton.1 hp
      exact h
  · rw [show automaton.arcs state = graph.minimize.arcs state from arcs_ofGraph state, Graph.arcs]
    cases hnode : graph.minimize.nodes[state]? with
    | none => exact List.Pairwise.nil
    | some node =>
        exact pairwise_arcs_determinize (closed_and_separated hclosed).1
          (List.mem_of_getElem? hnode)
  · obtain ⟨p, hp, word, path⟩ := reachable_minimize hclosed state hstate
    obtain rfl := List.mem_singleton.1 hp
    exact ⟨word, (mem_follow hordered).2 path⟩
  · show ofGraph graph.minimize = _
    rw [ofGraph, nodes_minimize_of_empty hclosed hnone]
    rfl

/-- A graph with a dead end, and with two states that continue with the same words.  Both are gone
in the smallest automaton, and its two states cannot become one. -/
theorem ofGraph_minimize_minimal_dead_end :
    let graph := ((((Graph.start.addArc 0 5).2.addArc 0 7).2.addArc 0 9).2.setFinal 1).setFinal 2
    let automaton := ofGraph graph.minimize
    graph.Closed ∧ graph.size = 4 ∧ graph.Accepts [5] ∧ automaton.size = 2 ∧
      (∃ word, automaton.Continues 0 word) ∧
      ∀ other : Graph, other.Closed → other.Deterministic →
        (∀ word, other.Accepts word ↔ graph.Accepts word) → 2 ≤ other.size := by
  intro graph automaton
  have hbuilt : graph.Built :=
    .setFinal (.setFinal
      (.addArc (.addArc (.addArc .start (by decide) 5) (by decide) 7) (by decide) 9)
      (by decide)) (by decide)
  have hclosed : graph.Closed := hbuilt.spec.1
  have hword : graph.Accepts [5] := ⟨0, List.mem_singleton_self 0, acceptsFrom_cons.2
    ⟨1, by decide, acceptsFrom_nil.2 (by decide)⟩⟩
  have hsize : automaton.size = 2 := by decide +kernel
  obtain ⟨-, -, -, hlive, -, -, hleast⟩ := ofGraph_minimize_minimal hclosed
  exact ⟨hclosed, by decide +kernel, hword, hsize, hlive ⟨[5], hword⟩ 0 (by decide +kernel),
    fun other hother hdeterministic hwords => hsize ▸ hleast other hother hdeterministic hwords⟩

end Automaton

end LexicalSelection
