import LexicalSelection.Proofs.Automaton.Deterministic

/-!
# The subset construction round by round

The subset construction works through a list of sets that grows while it is worked through.  Sets
are looked up in an index, which says the number of each set, and sets that it does not hold are
added to the list and to the index.  Rounds are taken as long as there is a set without a state;
nothing else bounds them.  They end because no set is listed twice and there are only so many sets
of states.

* `Worklist` — the construction between two rounds: states made, sets found, and their index.
* `Worklist.round` — one round, when there is a set without a state.
* `Worklist.After` — what has been made after so many rounds.
* `Worklist.Indexed` — the index and the list of the sets are inverse to each other.
* `Worklist.Kept` — what holds between any two rounds.
* `Reaches` — the states that a word leads to from the initial states.
* **`Worklist.kept_of_after`** — every round keeps it.
* **`Worklist.exists_last`**, **`Worklist.done_eq_nodes`** — the rounds end, and the states made
  then are those of the deterministic graph.
* **`determinize_worklist`** — how many rounds there are, and what the numbered sets are.
-/

namespace LexicalSelection.Graph

variable {graph : Graph} {subset : List Nat} {word : List Nat} {i j : Nat}

/-! ## Rounds -/

/-- The subset construction between two rounds. -/
structure Worklist where
  /-- The states made so far, one for each of the first sets. -/
  done : List Node
  /-- The sets found so far by number. -/
  subsets : List (List Nat)
  /-- The numbers of these sets. -/
  index : List (List Nat × Nat)
  deriving DecidableEq, Repr

namespace Worklist

/-- Before the first round only the set of the initial states has been found. -/
def start (graph : Graph) : Worklist :=
  { done := []
    subsets := [Ascending.ofList graph.initials]
    index := Ascending.put (Ascending.ofList graph.initials) 0 [] }

/-- The number that the index has for a set.  A set that it does not hold gets the next number. -/
def number (subset : List Nat) (work : Worklist) : Nat × Worklist :=
  match Ascending.find? subset work.index with
  | some number => (number, work)
  | none =>
    (work.subsets.length,
      { work with
        subsets := work.subsets ++ [subset]
        index := Ascending.put subset work.subsets.length work.index })

/-- The arcs for the steps that leave a set, whose targets are numbered one after the other. -/
def numberAll : List (Nat × List Nat) → Worklist → List Arc × Worklist
  | [], work => ([], work)
  | (symbol, subset) :: moves, work =>
    let (target, work) := work.number subset
    let (arcs, work) := numberAll moves work
    (⟨symbol, target⟩ :: arcs, work)

/-- One round: the state for the first set that has none, if there is such a set. -/
def round (graph : Graph) (work : Worklist) : Option Worklist :=
  work.subsets[work.done.length]?.map fun subset =>
    let (arcs, work) := work.numberAll (graph.moves subset)
    { work with done := work.done ++ [{ arcs, final := subset.any graph.isFinal }] }

/-- What has been made after so many rounds. -/
inductive After (graph : Graph) : Nat → Worklist → Prop
  | start : After graph 0 (.start graph)
  | round {rounds : Nat} {work next : Worklist} (h : After graph rounds work)
      (hround : work.round graph = some next) : After graph (rounds + 1) next

/-! ## The index -/

/-- The index holds the sets that have been found, each with its number, and nothing else. -/
structure Indexed (work : Worklist) : Prop where
  keys : Ascending.StrictKeys work.index
  inverse : ∀ i subset,
    work.subsets[i]? = some subset ↔ Ascending.find? subset work.index = some i

variable {work next : Worklist} {rounds : Nat} {moves : List (Nat × List Nat)}

lemma indexed_start (graph : Graph) : (start graph).Indexed where
  keys := List.pairwise_singleton _ _
  inverse i subset := by
    have hfind : Ascending.find? subset (start graph).index
        = if subset = Ascending.ofList graph.initials then some 0 else none :=
      Ascending.find?_alter List.Pairwise.nil
    rw [hfind, start, List.getElem?_singleton]
    cases i <;> simp [eq_comm]

/-- Numbers that go up one by one are looked up as in a list. -/
lemma Indexed.find?_eq_idxOf? (h : work.Indexed) (subset : List Nat) :
    Ascending.find? subset work.index = work.subsets.idxOf? subset := by
  cases hnumber : work.subsets.idxOf? subset with
  | none =>
      rw [Option.eq_none_iff_forall_ne_some]
      intro i hi
      exact List.idxOf?_eq_none_iff.1 hnumber (List.mem_of_getElem? ((h.inverse i subset).2 hi))
  | some i =>
      obtain ⟨hlt, hat, -⟩ := List.idxOf?_eq_some_iff.1 hnumber
      exact (h.inverse i subset).1 (List.getElem?_eq_some_iff.2 ⟨hlt, hat⟩)

lemma getElem?_append_singleton_iff {xs : List (List Nat)} {x y : List Nat} :
    (xs ++ [x])[i]? = some y ↔ xs[i]? = some y ∨ i = xs.length ∧ x = y := by
  rw [List.getElem?_append]
  split
  · rename_i hlt
    simp [Nat.ne_of_lt hlt]
  · rename_i hge
    rw [List.getElem?_eq_none (Nat.not_lt.1 hge), List.getElem?_singleton]
    have hend : i - xs.length = 0 ↔ i = xs.length := by omega
    simp [hend]

/-- A set that the index does not hold can be added with the next number. -/
lemma Indexed.append (h : work.Indexed) (hnew : Ascending.find? subset work.index = none) :
    Indexed { work with
      subsets := work.subsets ++ [subset]
      index := Ascending.put subset work.subsets.length work.index } where
  keys := Ascending.strictKeys_alter h.keys
  inverse i targets := by
    have hfind : Ascending.find? targets (Ascending.put subset work.subsets.length work.index)
        = if targets = subset then some work.subsets.length
          else Ascending.find? targets work.index := Ascending.find?_alter h.keys
    rw [getElem?_append_singleton_iff, h.inverse, hfind]
    by_cases heq : targets = subset
    · simp [heq, hnew, eq_comm]
    · simp [heq, Ne.symm heq]

/-- **Looking a set up in the index gives the number of its place**, and what is added keeps index
and list inverse to each other. -/
lemma number_spec (h : work.Indexed) (subset : List Nat) :
    (work.number subset).1 = (numberSubset work.subsets subset).1 ∧
      (work.number subset).2.subsets = (numberSubset work.subsets subset).2 ∧
      (work.number subset).2.done = work.done ∧ (work.number subset).2.Indexed := by
  cases hnumber : Ascending.find? subset work.index with
  | some i =>
      simpa [number, numberSubset, ← h.find?_eq_idxOf?, hnumber] using h
  | none =>
      simpa [number, numberSubset, ← h.find?_eq_idxOf?, hnumber] using h.append hnumber

lemma numberAll_spec (h : work.Indexed) (moves : List (Nat × List Nat)) :
    (work.numberAll moves).1 = (numberMoves work.subsets moves).1 ∧
      (work.numberAll moves).2.subsets = (numberMoves work.subsets moves).2 ∧
      (work.numberAll moves).2.done = work.done ∧ (work.numberAll moves).2.Indexed := by
  induction moves generalizing work with
  | nil => exact ⟨rfl, rfl, rfl, h⟩
  | cons move moves ih =>
      obtain ⟨symbol, subset⟩ := move
      obtain ⟨htarget, hsubsets, hdone, hindexed⟩ := number_spec h subset
      obtain ⟨harcs, hsubsets', hdone', hindexed'⟩ := ih hindexed
      simp only [numberAll, numberMoves]
      exact ⟨by rw [harcs, htarget, hsubsets], by rw [hsubsets', hsubsets], hdone'.trans hdone,
        hindexed'⟩

/-- **What a round does**: it makes a state for the next set, as the construction that looks sets up
in the list does. -/
lemma round_spec (h : work.Indexed) (hround : work.round graph = some next) :
    ∃ subset, work.subsets[work.done.length]? = some subset ∧
      next.done = work.done ++ [{ arcs := (numberMoves work.subsets (graph.moves subset)).1,
                                  final := subset.any graph.isFinal }] ∧
      next.subsets = (numberMoves work.subsets (graph.moves subset)).2 ∧ next.Indexed := by
  obtain ⟨subset, hsubset, rfl⟩ := Option.map_eq_some_iff.1 hround
  obtain ⟨harcs, hsubsets, hdone, hindexed⟩ := numberAll_spec h (graph.moves subset)
  refine ⟨subset, hsubset, ?_, hsubsets, hindexed.keys, hindexed.inverse⟩
  simp only [harcs, hdone]

/-- There is no further round just when there is no set without a state. -/
lemma round_eq_none_iff : work.round graph = none ↔ work.subsets.length ≤ work.done.length := by
  rw [round, Option.map_eq_none_iff, List.getElem?_eq_none_iff]

lemma explore_of_round (h : work.Indexed) (hround : work.round graph = some next) (rounds : Nat) :
    graph.explore (rounds + 1) work.done work.subsets
      = graph.explore rounds next.done next.subsets := by
  obtain ⟨subset, hsubset, hdone, hsubsets, -⟩ := round_spec h hround
  rw [hdone, hsubsets, explore, hsubset]

lemma explore_of_round_eq_none (h : work.round graph = none) (rounds : Nat) :
    graph.explore rounds work.done work.subsets = work.done := by
  cases rounds with
  | zero => rfl
  | succ rounds => rw [explore, Option.map_eq_none_iff.1 h]

end Worklist

/-! ## What the rounds keep -/

/-- Does a path with this word lead to the state from an initial one? -/
def Reaches (graph : Graph) (word : List Nat) (q : Nat) : Prop :=
  ∃ p ∈ graph.initials, graph.Path p word q

namespace Worklist

variable {work next : Worklist} {rounds : Nat}

/-- What holds between two rounds, also of arcs to sets that have no state yet. -/
structure Kept (graph : Graph) (rounds : Nat) (work : Worklist) : Prop where
  /-- Each round has made one state. -/
  length : work.done.length = rounds
  /-- The set of the initial states has number 0. -/
  start : work.subsets[0]? = some (Ascending.ofList graph.initials)
  /-- Index and list are inverse to each other. -/
  indexed : work.Indexed
  /-- No set is numbered twice, and there is a state for each of the first sets, whose arcs lead to
  the numbers of the sets that one step leads to. -/
  exploring : graph.Exploring work.done work.subsets
  /-- The arcs of each state have different symbols, in ascending order. -/
  ascending : ∀ node ∈ work.done, node.arcs.Pairwise fun arc arc' => arc.symbol < arc'.symbol
  /-- Only sets that steps lead to are numbered. -/
  found : ∀ subset ∈ work.subsets, graph.Found subset

lemma kept_start (hclosed : graph.Closed) : Kept graph 0 (start graph) where
  length := rfl
  start := rfl
  indexed := indexed_start graph
  exploring := exploring_start hclosed
  ascending := List.forall_mem_nil _
  found subset hsubset := by
    rw [List.mem_singleton.1 hsubset]
    exact .start

lemma Kept.round (hclosed : graph.Closed) (h : Kept graph rounds work)
    (hround : work.round graph = some next) : Kept graph (rounds + 1) next := by
  obtain ⟨subset, hsubset, hdone, hsubsets, hindexed⟩ := round_spec h.indexed hround
  obtain ⟨hgrown, hexploring⟩ := exploring_round hclosed h.exploring hsubset
  rw [← hdone, ← hsubsets] at hexploring
  rw [← hsubsets] at hgrown
  refine ⟨by rw [hdone, List.length_append, h.length, List.length_singleton],
    getElem?_of_isPrefix hgrown h.start, hindexed, hexploring, fun node hnode => ?_,
    fun targets htargets => ?_⟩
  · obtain ⟨subset, -, hstands⟩ := exists_mem_left hexploring.states hnode
    exact hstands.pairwise_arcs
  · rw [hsubsets] at htargets
    rcases mem_numberMoves htargets with htargets | ⟨symbol, hmove⟩
    · exact h.found targets htargets
    · exact (h.found subset (List.mem_of_getElem? hsubset)).move hmove

/-- **Every round keeps what holds between rounds.** -/
lemma kept_of_after (hclosed : graph.Closed) (h : After graph rounds work) :
    Kept graph rounds work := by
  induction h with
  | start => exact kept_start hclosed
  | round _ hround ih => exact ih.round hclosed hround

/-- No more rounds are taken than there are sets of states. -/
lemma Kept.le (h : Kept graph rounds work) : rounds ≤ 2 ^ graph.size :=
  h.length ▸ h.exploring.le.trans (length_known_le h.exploring.sets)

/-- **The rounds end.** -/
lemma exists_last (hclosed : graph.Closed) (more : Nat) (h : After graph rounds work)
    (hmore : 2 ^ graph.size ≤ rounds + more) :
    ∃ rounds' ≤ 2 ^ graph.size, ∃ last, After graph rounds' last ∧ last.round graph = none := by
  have hkept := kept_of_after hclosed h
  induction more generalizing rounds work with
  | zero =>
      -- each round has made a state, so there is one for every set there can be
      have hfull : work.subsets.length ≤ work.done.length :=
        (length_known_le hkept.exploring.sets).trans (hkept.length ▸ hmore)
      exact ⟨rounds, hkept.le, work, h, round_eq_none_iff.2 hfull⟩
  | succ more ih =>
      cases hround : work.round graph with
      | none => exact ⟨rounds, hkept.le, work, h, hround⟩
      | some next => exact ih (h.round hround) (by omega) (hkept.round hclosed hround)

/-- The construction with a bound takes the same rounds. -/
lemma explore_of_after (hclosed : graph.Closed) (h : After graph rounds work) (more : Nat) :
    graph.explore (rounds + more) [] [Ascending.ofList graph.initials]
      = graph.explore more work.done work.subsets := by
  induction h generalizing more with
  | start => rw [Nat.zero_add]; rfl
  | round h hround ih =>
      rw [Nat.add_assoc, Nat.add_comm 1, ih,
        explore_of_round (kept_of_after hclosed h).indexed hround]

/-- **The states made at the end are those of the deterministic graph**: its bound leaves room for
all rounds. -/
lemma done_eq_nodes (hclosed : graph.Closed) (h : After graph rounds work)
    (hend : work.round graph = none) : work.done = graph.determinize.nodes := by
  obtain ⟨more, hmore⟩ := Nat.exists_eq_add_of_le (kept_of_after hclosed h).le
  have hbound : twoTo graph.size = rounds + more := hmore
  rw [determinize, hbound, explore_of_after hclosed h, explore_of_round_eq_none hend]

end Worklist

/-! ## Words and sets -/

section Numbered

variable {known : List (List Nat)}
  (hstates : List.Forall₂ (graph.StandsFor known) known graph.determinize.nodes)
include hstates

lemma exists_targets_of_mem_arcs (hi : known[i]? = some subset) {arc : Arc}
    (harc : arc ∈ graph.determinize.arcs i) :
    ∃ targets, known[arc.target]? = some targets ∧
      (arc.symbol, targets) ∈ graph.moves subset := by
  obtain ⟨node, hnode, hstands⟩ := standsFor_of_getElem? hstates hi
  obtain ⟨node', hnode', harc⟩ := mem_arcs.1 harc
  obtain rfl := Option.some.inj (hnode.symm.trans hnode')
  exact hstands.exists_targets harc

/-- A path leads from the number of a set to the number of the set of all states that paths with the
same word lead to. -/
lemma exists_reached_of_path (hi : known[i]? = some subset)
    (path : graph.determinize.Path i word j) :
    ∃ reached, known[j]? = some reached ∧
      ∀ q, q ∈ reached ↔ ∃ p ∈ subset, graph.Path p word q := by
  induction path generalizing subset with
  | nil i => exact ⟨subset, hi, fun q => by simp⟩
  | cons harc _ ih =>
      obtain ⟨targets, htargets, hmove⟩ := exists_targets_of_mem_arcs hstates hi harc
      obtain ⟨reached, hj, hreached⟩ := ih htargets
      refine ⟨reached, hj, fun q => ?_⟩
      simp only [hreached, path_cons, (mem_moves hmove).2]
      constructor
      · rintro ⟨r, ⟨p, hp, harc⟩, path⟩
        exact ⟨p, hp, r, harc, path⟩
      · rintro ⟨p, hp, r, harc, path⟩
        exact ⟨r, ⟨p, hp, harc⟩, path⟩

/-- There is a path for a word just when the word leads to some state, or is empty. -/
lemma exists_path_iff (hnodup : known.Nodup) (hi : known[i]? = some subset) :
    (∃ j, graph.determinize.Path i word j) ↔
      word = [] ∨ ∃ q, ∃ p ∈ subset, graph.Path p word q := by
  induction word generalizing i subset with
  | nil => simp
  | cons symbol word ih =>
      simp only [path_cons, reduceCtorEq, false_or]
      constructor
      · rintro ⟨j, k, harc, path⟩
        obtain ⟨targets, hk, hmove⟩ := exists_targets_of_mem_arcs hstates hi harc
        rcases (ih hk).1 ⟨j, path⟩ with rfl | ⟨q, r, hr, path⟩
        · -- the word ends with this step, which leads to some state at least
          obtain ⟨r, hr⟩ := List.exists_mem_of_ne_nil targets (ne_nil_of_mem_moves hmove)
          obtain ⟨p, hp, harc⟩ := ((mem_moves hmove).2 r).1 hr
          exact ⟨r, p, hp, r, harc, .nil r⟩
        · obtain ⟨p, hp, harc⟩ := ((mem_moves hmove).2 r).1 hr
          exact ⟨q, p, hp, r, harc, path⟩
      · rintro ⟨q, p, hp, r, harc, path⟩
        obtain ⟨targets, hmove⟩ := exists_mem_moves hp harc
        obtain ⟨node, hnode, hstands⟩ := standsFor_of_getElem? hstates hi
        obtain ⟨k, hk⟩ := hstands.exists_number hmove
        have hr : r ∈ targets := ((mem_moves hmove).2 r).2 ⟨p, hp, harc⟩
        obtain ⟨j, path⟩ := (ih hk).2 (Or.inr ⟨q, r, hr, path⟩)
        exact ⟨j, k, mem_arcs.2 ⟨node, hnode, (hstands.mem_arcs hnodup hk).2 hmove⟩, path⟩

lemma isFinal_determinize (hi : known[i]? = some subset) :
    graph.determinize.isFinal i = true ↔ ∃ q ∈ subset, graph.isFinal q = true := by
  obtain ⟨node, hnode, hstands⟩ := standsFor_of_getElem? hstates hi
  simp [isFinal_iff, hnode, hstands.final]

end Numbered

/-- **The subset construction**, of a graph whose arcs and initial states lie within it.  The rounds
end, and there are at most as many as there are sets of states.  Between any two rounds, what is
kept holds: no set is numbered twice, the index is inverse to the list of the sets, and the arcs of
each state that has been made have different symbols, in ascending order.  At the end each word
leads from the start to the number of the set of all states that it leads to in the graph, which is
final just when a state of the set is; a word leads nowhere only when it leads to no state of the
graph. -/
theorem determinize_worklist (hclosed : graph.Closed) :
    (∃ rounds ≤ 2 ^ graph.size, ∃ last,
      Worklist.After graph rounds last ∧ last.round graph = none) ∧
    ∀ rounds work, Worklist.After graph rounds work → Worklist.Kept graph rounds work ∧
      (work.round graph = none → work.done = graph.determinize.nodes ∧
        ∀ word,
          ((∃ i, graph.determinize.Path 0 word i) ↔ word = [] ∨ ∃ q, graph.Reaches word q) ∧
          ∀ i, graph.determinize.Path 0 word i →
            ∃ subset, work.subsets[i]? = some subset ∧ (∀ q, q ∈ subset ↔ graph.Reaches word q) ∧
              (graph.determinize.isFinal i = true ↔ ∃ q ∈ subset, graph.isFinal q = true)) := by
  refine ⟨Worklist.exists_last hclosed (2 ^ graph.size) .start (Nat.le_add_left _ _),
    fun rounds work h => ?_⟩
  have hkept := Worklist.kept_of_after hclosed h
  refine ⟨hkept, fun hend => ?_⟩
  have hnodes := Worklist.done_eq_nodes hclosed h hend
  have hstates : List.Forall₂ (graph.StandsFor work.subsets) work.subsets
      graph.determinize.nodes :=
    hnodes ▸ hkept.exploring.finished (Worklist.round_eq_none_iff.1 hend)
  refine ⟨hnodes, fun word => ⟨?_, fun i path => ?_⟩⟩
  · rw [exists_path_iff hstates hkept.exploring.sets.nodup hkept.start]
    simp [Reaches]
  · obtain ⟨subset, hi, hsubset⟩ := exists_reached_of_path hstates hkept.start path
    refine ⟨subset, hi, fun q => ?_, isFinal_determinize hstates hi⟩
    rw [hsubset]
    simp [Reaches]

/-- Two arcs for one symbol leave a state that is listed twice as an initial one.  Three rounds make
all states there are, and a word that only leads on from the other state leads nowhere. -/
theorem determinize_worklist_three_rounds :
    let graph : Graph :=
      { initials := [0, 0], nodes := [⟨[⟨5, 0⟩, ⟨5, 1⟩], false⟩, ⟨[⟨6, 1⟩], true⟩] }
    let last : Worklist :=
      { done := [⟨[⟨5, 1⟩], false⟩, ⟨[⟨5, 1⟩, ⟨6, 2⟩], true⟩, ⟨[⟨6, 2⟩], true⟩]
        subsets := [[0], [0, 1], [1]]
        index := [([0], 0), ([0, 1], 1), ([1], 2)] }
    graph.Closed ∧ Worklist.After graph 3 last ∧ last.round graph = none ∧
      Worklist.Kept graph 3 last ∧ last.done = graph.determinize.nodes ∧
      (∀ q, q ∈ [1] ↔ graph.Reaches [5, 5, 6] q) ∧ ∀ q, ¬ graph.Reaches [6] q := by
  intro graph last
  have hclosed : graph.Closed := by
    refine ⟨by decide, fun p arc harc => ?_⟩
    have htargets : ∀ node ∈ graph.nodes, ∀ arc ∈ node.arcs, arc.target < graph.size := by decide
    obtain ⟨node, hnode, harc⟩ := mem_arcs.1 harc
    exact htargets node (List.mem_of_getElem? hnode) arc harc
  have hfirst : Worklist.After graph 1
      ⟨[⟨[⟨5, 1⟩], false⟩], [[0], [0, 1]], [([0], 0), ([0, 1], 1)]⟩ :=
    .round .start (by decide +kernel)
  have hsecond : Worklist.After graph 2
      ⟨[⟨[⟨5, 1⟩], false⟩, ⟨[⟨5, 1⟩, ⟨6, 2⟩], true⟩], last.subsets, last.index⟩ :=
    hfirst.round (by decide +kernel)
  have hafter : Worklist.After graph 3 last := hsecond.round (by decide +kernel)
  have hend : last.round graph = none := rfl
  obtain ⟨hkept, hlast⟩ := (determinize_worklist hclosed).2 3 last hafter
  obtain ⟨hnodes, hwords⟩ := hlast hend
  have harcs : ∀ i, graph.determinize.arcs i = (last.done[i]?.map Node.arcs).getD [] := fun i => by
    rw [hnodes, arcs]
  refine ⟨hclosed, hafter, hend, hkept, hnodes, ?_, fun q hq => ?_⟩
  · have path : graph.determinize.Path 0 [5, 5, 6] 2 := by simp [harcs, last]
    obtain ⟨subset, hsubset, hreached, -⟩ := (hwords [5, 5, 6]).2 2 path
    obtain rfl : [1] = subset := Option.some.inj hsubset
    exact hreached
  · obtain ⟨i, path⟩ := (hwords [6]).1.2 (Or.inr ⟨q, hq⟩)
    simp [harcs, last] at path

end LexicalSelection.Graph
