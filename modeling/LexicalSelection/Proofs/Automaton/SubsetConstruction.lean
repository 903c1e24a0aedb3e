import LexicalSelection.Proofs.Automaton.Language
import Mathlib.Algebra.Ring.Nat
import Mathlib.Data.List.Forall2
import Mathlib.Data.List.Sublists

/-!
# The subset construction keeps the words

A state of the deterministic graph stands for a set of states of the graph, and a word leads from it
to a final state just when it leads to one from some member of the set.

* `gather` — the arcs of a set of states by symbol, each with the set of its targets.
* `StandsFor` — a state that stands for a set, when the sets are numbered in a given way.
* `Exploring` — what holds between any two rounds of the construction.
* `Found` — the sets that steps lead to from the initial states, and no others are numbered.
* **`explore_induction`** — what every round keeps holds at the end.
* **`exists_standsFor_determinize`** — at the end every set that was found has its state.  There are
  rounds enough for that, since no more sets can be found than there are.
* **`accepts_determinize`**, **`accepts_minimize`** — the accepted words are those of the graph.
-/

namespace LexicalSelection.Graph

variable {graph : Graph} {p q symbol : Nat} {word : List Nat} {subset : List Nat}

/-! ## Steps of sets -/

/-- Arcs by symbol, each symbol with the set of the targets. -/
def gather (arcs : List Arc) : List (Nat × List Nat) :=
  arcs.foldr (fun arc moves => Ascending.alter arc.symbol
    (fun targets => Ascending.insert arc.target (targets.getD [])) moves) []

/-- The steps of a set are the arcs of its states, gathered by symbol. -/
lemma moves_eq_gather : graph.moves subset = gather (subset.flatMap graph.arcs) := rfl

/-- Gathered symbols are in strict order. -/
lemma strictKeys_gather (arcs : List Arc) : Ascending.StrictKeys (gather arcs) := by
  induction arcs with
  | nil => exact List.Pairwise.nil
  | cons arc arcs ih => exact Ascending.strictKeys_alter ih

lemma find?_gather_cons (arc : Arc) (arcs : List Arc) :
    Ascending.find? symbol (gather (arc :: arcs)) =
      if symbol = arc.symbol
      then some (Ascending.insert arc.target ((Ascending.find? arc.symbol (gather arcs)).getD []))
      else Ascending.find? symbol (gather arcs) :=
  Ascending.find?_alter (strictKeys_gather arcs)

/-- The targets that are gathered for a symbol are those of its arcs. -/
lemma mem_find?_gather (symbol q : Nat) (arcs : List Arc) :
    q ∈ (Ascending.find? symbol (gather arcs)).getD [] ↔ ⟨symbol, q⟩ ∈ arcs := by
  induction arcs generalizing symbol with
  | nil => simp [gather, Ascending.find?]
  | cons arc arcs ih =>
      obtain ⟨key, target⟩ := arc
      rw [find?_gather_cons]
      split
      · rename_i hkey
        simp [ih, hkey]
      · rename_i hkey
        simp [ih, hkey]

/-- The targets that are gathered for a symbol are in strict order. -/
lemma strict_find?_gather (symbol : Nat) (arcs : List Arc) :
    Ascending.Strict ((Ascending.find? symbol (gather arcs)).getD []) := by
  induction arcs generalizing symbol with
  | nil => exact List.Pairwise.nil
  | cons arc arcs ih =>
      rw [find?_gather_cons]
      split
      · exact Ascending.strict_insert (ih _)
      · exact ih _

/-- **The steps of a set.**  Each symbol on an arc of a member comes with the set of the states that
such arcs lead to. -/
lemma mem_moves {targets : List Nat} (h : (symbol, targets) ∈ graph.moves subset) :
    Ascending.Strict targets ∧ ∀ q, q ∈ targets ↔ ∃ p ∈ subset, ⟨symbol, q⟩ ∈ graph.arcs p := by
  rw [moves_eq_gather, ← Ascending.find?_eq_some_iff (strictKeys_gather _)] at h
  refine ⟨?_, fun q => ?_⟩
  · simpa [h] using strict_find?_gather symbol (subset.flatMap graph.arcs)
  · simpa [h] using mem_find?_gather symbol q (subset.flatMap graph.arcs)

/-- Each arc of a state of the set has its part in a step. -/
lemma exists_mem_moves (hp : p ∈ subset) (harc : ⟨symbol, q⟩ ∈ graph.arcs p) :
    ∃ targets, (symbol, targets) ∈ graph.moves subset := by
  have hmem : (⟨symbol, q⟩ : Arc) ∈ subset.flatMap graph.arcs := List.mem_flatMap.2 ⟨p, hp, harc⟩
  rw [← mem_find?_gather] at hmem
  cases hfound : Ascending.find? symbol (gather (subset.flatMap graph.arcs)) with
  | none => simp [hfound] at hmem
  | some targets => exact ⟨targets, (Ascending.find?_eq_some_iff (strictKeys_gather _)).1 hfound⟩

/-- No step leads to the empty set. -/
lemma ne_nil_of_find?_gather {arcs : List Arc} {targets : List Nat}
    (h : Ascending.find? symbol (gather arcs) = some targets) : targets ≠ [] := by
  induction arcs with
  | nil => cases h
  | cons arc arcs ih =>
      rw [find?_gather_cons] at h
      split at h
      · obtain rfl := Option.some.inj h
        exact List.ne_nil_of_mem (Ascending.mem_insert.2 (Or.inl rfl))
      · exact ih h

/-- A step leads to some state at least. -/
lemma ne_nil_of_mem_moves {targets : List Nat} (h : (symbol, targets) ∈ graph.moves subset) :
    targets ≠ [] := by
  rw [moves_eq_gather, ← Ascending.find?_eq_some_iff (strictKeys_gather _)] at h
  exact ne_nil_of_find?_gather h

/-- The sets that steps lead to from the set of the initial states. -/
inductive Found (graph : Graph) : List Nat → Prop
  | start : Found graph (Ascending.ofList graph.initials)
  | move {subset targets : List Nat} {symbol : Nat} (h : Found graph subset)
      (hmove : (symbol, targets) ∈ graph.moves subset) : Found graph targets

/-! ## Numbering sets -/

/-- A state that stands for a set, when every known set has the number of its place. -/
structure StandsFor (graph : Graph) (known : List (List Nat)) (subset : List Nat) (node : Node) :
    Prop where
  final : node.final = subset.any graph.isFinal
  arcs : List.Forall₂ (fun arc move => arc.symbol = move.1 ∧ known[arc.target]? = some move.2)
    node.arcs (graph.moves subset)

lemma exists_mem_left {α β : Type} {r : α → β → Prop} {xs : List α} {ys : List β} {y : β}
    (h : List.Forall₂ r xs ys) (hy : y ∈ ys) : ∃ x ∈ xs, r x y := by
  induction h with
  | nil => cases hy
  | cons hr _ ih =>
      rcases List.mem_cons.1 hy with rfl | hy
      · exact ⟨_, List.mem_cons_self, hr⟩
      · obtain ⟨x, hx, hxy⟩ := ih hy
        exact ⟨x, List.mem_cons_of_mem _ hx, hxy⟩

lemma getElem?_of_isPrefix {α : Type} {xs ys : List α} (h : xs <+: ys) {i : Nat} {x : α}
    (hx : xs[i]? = some x) : ys[i]? = some x := by
  obtain ⟨zs, rfl⟩ := h
  rw [List.getElem?_append_left (List.getElem?_eq_some_iff.1 hx).1, hx]

/-- A state stands for its set when more sets become known. -/
lemma StandsFor.mono {known known' : List (List Nat)} {node : Node}
    (h : graph.StandsFor known subset node) (hbegins : known <+: known') :
    graph.StandsFor known' subset node where
  final := h.final
  arcs := h.arcs.imp fun _ _ harc => ⟨harc.1, getElem?_of_isPrefix hbegins harc.2⟩

/-- The known sets are different ones of states of the graph. -/
structure Known (graph : Graph) (known : List (List Nat)) : Prop where
  nodup : known.Nodup
  strict : ∀ subset ∈ known, Ascending.Strict subset
  lt_size : ∀ subset ∈ known, ∀ p ∈ subset, p < graph.size

/-- A new set of states is a known one from then on. -/
lemma known_append {known : List (List Nat)} (h : graph.Known known) (hnew : subset ∉ known)
    (hstrict : Ascending.Strict subset) (hlt : ∀ p ∈ subset, p < graph.size) :
    graph.Known (known ++ [subset]) where
  nodup := by
    refine List.nodup_append.2 ⟨h.nodup, List.nodup_singleton subset, ?_⟩
    rintro s hs t ht rfl
    exact hnew (List.mem_singleton.1 ht ▸ hs)
  strict s hs := by
    rcases List.mem_append.1 hs with hs | hs
    · exact h.strict s hs
    · simpa [List.mem_singleton.1 hs] using hstrict
  lt_size s hs := by
    rcases List.mem_append.1 hs with hs | hs
    · exact h.lt_size s hs
    · simpa [List.mem_singleton.1 hs] using hlt

/-- Numbering a set keeps the numbers that have been given, and gives it one. -/
lemma numberSubset_spec {known : List (List Nat)} (h : graph.Known known)
    (hstrict : Ascending.Strict subset) (hlt : ∀ p ∈ subset, p < graph.size) :
    known <+: (numberSubset known subset).2 ∧ graph.Known (numberSubset known subset).2 ∧
      (numberSubset known subset).2[(numberSubset known subset).1]? = some subset := by
  unfold numberSubset
  split
  · rename_i number hnumber
    obtain ⟨hlen, hat, -⟩ := List.idxOf?_eq_some_iff.1 hnumber
    exact ⟨List.prefix_rfl, h, List.getElem?_eq_some_iff.2 ⟨hlen, hat⟩⟩
  · rename_i hnone
    exact ⟨List.prefix_append _ _, known_append h (List.idxOf?_eq_none_iff.1 hnone) hstrict hlt,
      by simp⟩

/-- Numbering the sets that steps lead to makes an arc for each step, and keeps all numbers. -/
lemma numberMoves_spec {known : List (List Nat)} {moves : List (Nat × List Nat)}
    (h : graph.Known known) (hstrict : ∀ move ∈ moves, Ascending.Strict move.2)
    (hlt : ∀ move ∈ moves, ∀ p ∈ move.2, p < graph.size) :
    known <+: (numberMoves known moves).2 ∧ graph.Known (numberMoves known moves).2 ∧
      List.Forall₂ (fun arc move => arc.symbol = move.1 ∧
        (numberMoves known moves).2[arc.target]? = some move.2)
          (numberMoves known moves).1 moves := by
  induction moves generalizing known with
  | nil => exact ⟨List.prefix_rfl, h, List.Forall₂.nil⟩
  | cons move moves ih =>
      obtain ⟨symbol, subset⟩ := move
      obtain ⟨hbegins, hknown, hnumber⟩ :=
        numberSubset_spec h (hstrict _ List.mem_cons_self) (hlt _ List.mem_cons_self)
      obtain ⟨hbegins', hknown', harcs⟩ := ih hknown
        (fun move hmove => hstrict move (List.mem_cons_of_mem _ hmove))
        (fun move hmove => hlt move (List.mem_cons_of_mem _ hmove))
      simp only [numberMoves]
      exact ⟨hbegins.trans hbegins', hknown',
        List.Forall₂.cons ⟨rfl, getElem?_of_isPrefix hbegins' hnumber⟩ harcs⟩

/-- Numbering a set makes no other set known. -/
lemma mem_numberSubset {known : List (List Nat)} {targets : List Nat}
    (h : subset ∈ (numberSubset known targets).2) : subset ∈ known ∨ subset = targets := by
  unfold numberSubset at h
  split at h
  · exact Or.inl h
  · simpa using h

/-- Only sets that the steps lead to become known. -/
lemma mem_numberMoves {known : List (List Nat)} {moves : List (Nat × List Nat)}
    (h : subset ∈ (numberMoves known moves).2) :
    subset ∈ known ∨ ∃ symbol, (symbol, subset) ∈ moves := by
  induction moves generalizing known with
  | nil => exact Or.inl h
  | cons move moves ih =>
      obtain ⟨symbol, targets⟩ := move
      simp only [numberMoves] at h
      rcases ih h with hknown | ⟨symbol', hmove⟩
      · rcases mem_numberSubset hknown with hknown | rfl
        · exact Or.inl hknown
        · exact Or.inr ⟨symbol, List.mem_cons_self⟩
      · exact Or.inr ⟨symbol', List.mem_cons_of_mem _ hmove⟩

/-! ## Rounds -/

/-- **What every round keeps holds at the end**, where there is a state for each known set unless
the rounds have run out. -/
lemma explore_induction (graph : Graph) (invariant : List Node → List (List Nat) → Prop)
    (hround : ∀ done known subset, invariant done known → known[done.length]? = some subset →
      invariant (done ++ [{ arcs := (numberMoves known (graph.moves subset)).1,
                            final := subset.any graph.isFinal }])
        (numberMoves known (graph.moves subset)).2)
    (rounds : Nat) {done : List Node} {known : List (List Nat)} (h : invariant done known) :
    ∃ known', invariant (graph.explore rounds done known) known' ∧
      (known'.length ≤ (graph.explore rounds done known).length ∨
        (graph.explore rounds done known).length = done.length + rounds) := by
  induction rounds generalizing done known with
  | zero => exact ⟨known, h, Or.inr rfl⟩
  | succ rounds ih =>
      simp only [explore]
      split
      · rename_i hnone
        exact ⟨known, h, Or.inl (List.getElem?_eq_none_iff.1 hnone)⟩
      · rename_i subset hnext
        obtain ⟨known', hinvariant, hend⟩ := ih (hround done known subset h hnext)
        refine ⟨known', hinvariant, hend.imp_right fun hlength => ?_⟩
        rw [hlength, List.length_append, List.length_singleton]
        omega

/-- Between two rounds there is a state for each of the first known sets. -/
structure Exploring (graph : Graph) (done : List Node) (known : List (List Nat)) : Prop where
  sets : graph.Known known
  le : done.length ≤ known.length
  states : List.Forall₂ (graph.StandsFor known) (known.take done.length) done

/-- When there are as many states as known sets, each known set has its state. -/
lemma Exploring.finished {done : List Node} {known : List (List Nat)}
    (h : graph.Exploring done known) (hle : known.length ≤ done.length) :
    List.Forall₂ (graph.StandsFor known) known done := by
  simpa only [List.take_of_length_le hle] using h.states

/-- There are no more sets of states than that. -/
lemma length_known_le {known : List (List Nat)} (h : graph.Known known) :
    known.length ≤ 2 ^ graph.size := by
  have hsublists : known ⊆ (List.range graph.size).sublists := by
    intro subset hsubset
    rw [List.mem_sublists]
    have hlt : subset.Pairwise (· < ·) :=
      (h.strict subset hsubset).imp fun hlt => Nat.compare_eq_lt.1 hlt
    refine List.sublist_of_subperm_of_pairwise (r := (· < ·)) ?_ hlt List.pairwise_lt_range
    exact List.subperm_of_subset (h.strict subset hsubset).nodup
      fun p hp => List.mem_range.2 (h.lt_size subset hsubset p hp)
  simpa using (List.subperm_of_subset h.nodup hsublists).length_le

/-- A round makes the state for the next known set, and leaves the states before it right. -/
lemma exploring_round {done : List Node} {known : List (List Nat)} (hclosed : graph.Closed)
    (h : graph.Exploring done known) (hnext : known[done.length]? = some subset) :
    known <+: (numberMoves known (graph.moves subset)).2 ∧
      graph.Exploring
        (done ++ [{ arcs := (numberMoves known (graph.moves subset)).1,
                    final := subset.any graph.isFinal }])
        (numberMoves known (graph.moves subset)).2 := by
  have hlt_size : ∀ move ∈ graph.moves subset, ∀ p ∈ move.2, p < graph.size := by
    intro move hmove p hp
    obtain ⟨q, -, harc⟩ := ((mem_moves hmove).2 p).1 hp
    exact hclosed.target_lt q _ harc
  obtain ⟨hbegins, hknown, harcs⟩ :=
    numberMoves_spec h.sets (fun move hmove => (mem_moves hmove).1) hlt_size
  have hlt := (List.getElem?_eq_some_iff.1 (getElem?_of_isPrefix hbegins hnext)).1
  refine ⟨hbegins, hknown, by simpa using Nat.succ_le_of_lt hlt, ?_⟩
  have htake : (numberMoves known (graph.moves subset)).2.take (done.length + 1)
      = known.take done.length ++ [subset] := by
    rw [List.take_add_one, getElem?_of_isPrefix hbegins hnext]
    obtain ⟨new, hnew⟩ := hbegins
    rw [← hnew, List.take_append_of_le_length h.le]
    rfl
  simp only [List.length_append, List.length_singleton, htake]
  refine List.rel_append (h.states.imp fun _ _ hstate => hstate.mono hbegins) ?_
  exact List.Forall₂.cons ⟨rfl, harcs⟩ List.Forall₂.nil

/-- **When the rounds end, every known set has its state**, and all of them have been found. -/
lemma explore_spec (rounds : Nat) {done : List Node} {known : List (List Nat)}
    (hclosed : graph.Closed) (h : graph.Exploring done known) (hfound : ∀ s ∈ known, graph.Found s)
    (hrounds : 2 ^ graph.size ≤ done.length + rounds) :
    ∃ known', known <+: known' ∧ graph.Known known' ∧ (∀ s ∈ known', graph.Found s) ∧
      List.Forall₂ (graph.StandsFor known') known' (graph.explore rounds done known) := by
  obtain ⟨known', ⟨hbegins, hexploring, hfound'⟩, hend⟩ := explore_induction graph
    (fun done' known' =>
      known <+: known' ∧ graph.Exploring done' known' ∧ ∀ s ∈ known', graph.Found s)
    (fun done' known' subset h hnext => by
      obtain ⟨hbegins, hexploring, hfound⟩ := h
      obtain ⟨hgrown, hround⟩ := exploring_round hclosed hexploring hnext
      refine ⟨hbegins.trans hgrown, hround, fun s hs => ?_⟩
      rcases mem_numberMoves hs with hs | ⟨symbol, hmove⟩
      · exact hfound s hs
      · exact (hfound subset (List.mem_of_getElem? hnext)).move hmove)
    rounds ⟨List.prefix_rfl, h, hfound⟩
  -- Each round has made a state, so there is one for every set there can be.
  have hle : known'.length ≤ (graph.explore rounds done known).length := by
    rcases hend with hle | hlength
    · exact hle
    · exact (length_known_le hexploring.sets).trans (hlength ▸ hrounds)
  exact ⟨known', hbegins, hexploring.sets, hfound', hexploring.finished hle⟩

/-! ## The deterministic graph -/

/-- Before the first round only the set of the initial states is known. -/
lemma exploring_start (hclosed : graph.Closed) :
    graph.Exploring [] [Ascending.ofList graph.initials] := by
  refine ⟨⟨List.nodup_singleton _, ?_, ?_⟩, by simp, List.Forall₂.nil⟩
  · simpa using Ascending.strict_ofList graph.initials
  · simpa using hclosed.initial_lt

/-- **The states of the deterministic graph stand for the sets that are found**, the first of them
for the initial states of the graph. -/
lemma exists_found_determinize (hclosed : graph.Closed) :
    ∃ known, known[0]? = some (Ascending.ofList graph.initials) ∧ graph.Known known ∧
      (∀ s ∈ known, graph.Found s) ∧
      List.Forall₂ (graph.StandsFor known) known graph.determinize.nodes := by
  have hfound : ∀ s ∈ [Ascending.ofList graph.initials], graph.Found s := by
    intro s hs
    rw [List.mem_singleton.1 hs]
    exact .start
  obtain ⟨known, hbegins, hknown, hfound, hstates⟩ :=
    explore_spec (twoTo graph.size) hclosed (exploring_start hclosed) hfound (by simp)
  exact ⟨known, getElem?_of_isPrefix hbegins rfl, hknown, hfound, hstates⟩

/-- **The states of the deterministic graph stand for different sets**, the first of them for the
initial states of the graph. -/
lemma exists_standsFor_determinize (hclosed : graph.Closed) :
    ∃ known, known[0]? = some (Ascending.ofList graph.initials) ∧ graph.Known known ∧
      List.Forall₂ (graph.StandsFor known) known graph.determinize.nodes := by
  obtain ⟨known, hstart, hknown, -, hstates⟩ := exists_found_determinize hclosed
  exact ⟨known, hstart, hknown, hstates⟩

section Numbered

variable {known : List (List Nat)} {i j : Nat} {targets : List Nat}

/-- The arcs of a state are the steps of its set, to the numbers of the sets that they lead to. -/
lemma StandsFor.mem_arcs {node : Node} (h : graph.StandsFor known subset node)
    (hnodup : known.Nodup) (hj : known[j]? = some targets) :
    ⟨symbol, j⟩ ∈ node.arcs ↔ (symbol, targets) ∈ graph.moves subset := by
  constructor
  · intro harc
    obtain ⟨⟨symbol, targets'⟩, hmove, rfl, hj'⟩ := exists_mem_left h.arcs.flip harc
    obtain rfl : targets = targets' := Option.some.inj (hj.symm.trans hj')
    exact hmove
  · intro hmove
    obtain ⟨⟨symbol, j'⟩, harc, rfl, hj'⟩ := exists_mem_left h.arcs hmove
    obtain rfl : j = j' := (List.getElem?_inj (List.getElem?_eq_some_iff.1 hj).1 hnodup).1
      (hj.trans hj'.symm)
    exact harc

/-- Each arc leads to the number of a known set. -/
lemma StandsFor.exists_targets {node : Node} {arc : Arc} (h : graph.StandsFor known subset node)
    (harc : arc ∈ node.arcs) :
    ∃ targets, known[arc.target]? = some targets ∧ (arc.symbol, targets) ∈ graph.moves subset := by
  obtain ⟨⟨symbol, targets⟩, hmove, hsymbol, hj⟩ := exists_mem_left h.arcs.flip harc
  exact ⟨targets, hj, hsymbol ▸ hmove⟩

/-- Each set that a step leads to has a number. -/
lemma StandsFor.exists_number {node : Node} (h : graph.StandsFor known subset node)
    (hmove : (symbol, targets) ∈ graph.moves subset) : ∃ j : Nat, known[j]? = some targets := by
  obtain ⟨arc, -, -, hj⟩ := exists_mem_left h.arcs hmove
  exact ⟨arc.target, hj⟩

/-- The arcs of a state have different symbols, in ascending order. -/
lemma StandsFor.pairwise_arcs {node : Node} (h : graph.StandsFor known subset node) :
    node.arcs.Pairwise fun arc arc' => arc.symbol < arc'.symbol := by
  have hsymbols : node.arcs.map Arc.symbol = (graph.moves subset).map Prod.fst := by
    rw [← List.forall₂_eq_eq_eq, List.forall₂_map_left_iff, List.forall₂_map_right_iff]
    exact h.arcs.imp fun _ _ harc => harc.1
  rw [← List.pairwise_map (R := (· < ·)), hsymbols, List.pairwise_map]
  exact (strictKeys_gather _).imp fun hlt => Nat.compare_eq_lt.1 hlt

variable (hstates : List.Forall₂ (graph.StandsFor known) known graph.determinize.nodes)
include hstates

/-- Each known set has a state of the deterministic graph. -/
lemma standsFor_of_getElem? (hi : known[i]? = some subset) :
    ∃ node, graph.determinize.nodes[i]? = some node ∧ graph.StandsFor known subset node := by
  obtain ⟨hlt, rfl⟩ := List.getElem?_eq_some_iff.1 hi
  have hlt' : i < graph.determinize.nodes.length := hstates.length_eq ▸ hlt
  exact ⟨_, List.getElem?_eq_getElem hlt', hstates.get hlt hlt'⟩

/-- Each state of the deterministic graph stands for a known set. -/
lemma exists_standsFor {node : Node} (hnode : graph.determinize.nodes[i]? = some node) :
    ∃ subset, known[i]? = some subset ∧ graph.StandsFor known subset node := by
  obtain ⟨hlt, rfl⟩ := List.getElem?_eq_some_iff.1 hnode
  have hlt' : i < known.length := hstates.length_eq ▸ hlt
  exact ⟨_, List.getElem?_eq_getElem hlt', hstates.get hlt' hlt⟩

/-- A state that stands for a set accepts what some member of the set accepts. -/
lemma acceptsFrom_determinize (hnodup : known.Nodup) (hi : known[i]? = some subset) :
    graph.determinize.AcceptsFrom i word ↔ ∃ p ∈ subset, graph.AcceptsFrom p word := by
  induction word generalizing i subset with
  | nil =>
      obtain ⟨node, hnode, hstands⟩ := standsFor_of_getElem? hstates hi
      simp [isFinal_iff, hnode, hstands.final]
  | cons symbol word ih =>
      obtain ⟨node, hnode, hstands⟩ := standsFor_of_getElem? hstates hi
      have harcs : graph.determinize.arcs i = node.arcs := by simp [arcs, hnode]
      simp only [acceptsFrom_cons, harcs]
      constructor
      · rintro ⟨j, harc, haccepts⟩
        obtain ⟨targets, hj, hmove⟩ := hstands.exists_targets harc
        obtain ⟨q, hq, haccepts⟩ := (ih hj).1 haccepts
        obtain ⟨p, hp, harc⟩ := ((mem_moves hmove).2 q).1 hq
        exact ⟨p, hp, q, harc, haccepts⟩
      · rintro ⟨p, hp, q, harc, haccepts⟩
        obtain ⟨targets, hmove⟩ := exists_mem_moves hp harc
        obtain ⟨j, hj⟩ := hstands.exists_number hmove
        have hq : q ∈ targets := ((mem_moves hmove).2 q).2 ⟨p, hp, harc⟩
        exact ⟨j, (hstands.mem_arcs hnodup hj).2 hmove, (ih hj).2 ⟨q, hq, haccepts⟩⟩

end Numbered

/-- The deterministic graph has no arcs that lead out of it. -/
lemma closed_determinize (hclosed : graph.Closed) : graph.determinize.Closed := by
  obtain ⟨known, hstart, -, hstates⟩ := exists_standsFor_determinize hclosed
  have hsize : known.length = graph.determinize.size := hstates.length_eq
  refine ⟨?_, fun i arc harc => ?_⟩
  · intro p hp
    obtain rfl := List.mem_singleton.1 hp
    exact hsize ▸ (List.getElem?_eq_some_iff.1 hstart).1
  · obtain ⟨node, hnode, harc⟩ := mem_arcs.1 harc
    obtain ⟨subset, -, hstands⟩ := exists_standsFor hstates hnode
    obtain ⟨targets, htarget, -⟩ := hstands.exists_targets harc
    exact hsize ▸ (List.getElem?_eq_some_iff.1 htarget).1

/-- **The deterministic graph accepts the words of the graph.** -/
lemma accepts_determinize (hclosed : graph.Closed) :
    graph.determinize.Accepts word ↔ graph.Accepts word := by
  obtain ⟨known, hstart, hknown, hstates⟩ := exists_standsFor_determinize hclosed
  have hinitials : graph.determinize.initials = [0] := rfl
  simp [Accepts, hinitials, acceptsFrom_determinize hstates hknown.nodup hstart]

/-- The arcs that leave a state of the deterministic graph have different symbols, in ascending
order. -/
lemma pairwise_arcs_determinize (hclosed : graph.Closed) {node : Node}
    (hnode : node ∈ graph.determinize.nodes) :
    node.arcs.Pairwise fun arc arc' => arc.symbol < arc'.symbol := by
  obtain ⟨known, -, -, hstates⟩ := exists_standsFor_determinize hclosed
  obtain ⟨subset, -, hstands⟩ := exists_mem_left hstates hnode
  exact hstands.pairwise_arcs

/-! ## The smallest graph -/

/-- **The smallest deterministic graph accepts the words of the graph.** -/
lemma accepts_minimize (hclosed : graph.Closed) :
    graph.minimize.Accepts word ↔ graph.Accepts word := by
  have hreverse := closed_reverse hclosed
  have hdeterminize := closed_determinize hreverse
  rw [minimize, accepts_determinize (closed_reverse hdeterminize), accepts_reverse hdeterminize,
    accepts_determinize hreverse, accepts_reverse hclosed, List.reverse_reverse]

end LexicalSelection.Graph
