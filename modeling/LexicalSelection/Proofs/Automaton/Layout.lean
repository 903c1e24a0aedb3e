import LexicalSelection.Proofs.Automaton.Minimizing
import LexicalSelection.Proofs.Automaton.Stored

/-!
# The layout of automata

An automaton holds together when its offsets cut its table into one part for each state and its arcs
lead to states that exist.  Then no run can leave it.  The arcs of a state need not be in order for
this: where they are not, a search for the first arc for a symbol may end anywhere among them, and
the run still finds nothing but arcs of the automaton.

* `WellFormed`, `FitsWords` — what is demanded of the layout, and of the size of numbers.
* **`storable_iff`** — just the well-formed automata whose numbers fit can be stored.
* `SliceInRange` — the arcs of a state can be looked up in the table.
* `Search`, `runBy` — the steps of an automaton, wherever its searches end.
* **`WellFormed.runsInside`** — a run comes only to states whose arcs can be looked up.
-/

namespace LexicalSelection.Automaton

variable {automaton : Automaton} {p q state symbol total : Nat} {offsets : List Nat}

/-! ## Layouts that hold together -/

/-- The offsets cut the table into one part for each state, and all states that are named exist. -/
structure WellFormed (automaton : Automaton) : Prop where
  first : automaton.offsets.head? = some 0
  ascending : automaton.offsets.Pairwise (· ≤ ·)
  length : automaton.offsets.length = automaton.size + 1
  last : automaton.offsets.getLast? = some automaton.table.length
  initial_lt : initial < automaton.size
  target_lt : ∀ arc ∈ automaton.table, arc.target < automaton.size
  final_lt : ∀ state ∈ automaton.finals, state < automaton.size

/-- The numbers of states, arcs and symbols have 32 bits. -/
structure FitsWords (automaton : Automaton) : Prop where
  states : automaton.size < twoTo 32
  arcs : automaton.table.length < twoTo 32
  symbol : ∀ arc ∈ automaton.table, arc.symbol < twoTo 32

lemma pairwise_runningSums (total : Nat) (counts : List Nat) :
    (runningSums total counts).Pairwise (· ≤ ·) ∧ ∀ n ∈ runningSums total counts, total ≤ n := by
  induction counts generalizing total with
  | nil => simp [runningSums]
  | cons n counts ih =>
      obtain ⟨hpairwise, hle⟩ := ih (total + n)
      have htotal : ∀ m ∈ runningSums (total + n) counts, total ≤ m := by
        intro m hm
        exact (Nat.le_add_right total n).trans (hle m hm)
      refine ⟨List.pairwise_cons.2 ⟨htotal, hpairwise⟩, ?_⟩
      exact List.forall_mem_cons.2 ⟨le_refl total, htotal⟩

lemma getLast?_runningSums (total : Nat) (counts : List Nat) :
    (runningSums total counts).getLast? = some (total + counts.sum) := by
  rw [List.getLast?_eq_getElem?, length_runningSums, Nat.add_sub_cancel,
    getElem?_runningSums total (le_refl _), List.take_length]

/-- Ascending numbers are the running sums of their gaps. -/
lemma runningSums_gaps (h : (total :: offsets).Pairwise (· ≤ ·)) :
    runningSums total (gaps (total :: offsets)) = total :: offsets := by
  induction offsets generalizing total with
  | nil => rfl
  | cons n offsets ih =>
      obtain ⟨hle, hrest⟩ := List.pairwise_cons.1 h
      have htotal : total + (n - total) = n := Nat.add_sub_cancel' (hle n List.mem_cons_self)
      rw [gaps, runningSums, htotal, ih hrest]

lemma Storable.wellFormed (h : automaton.Storable) : automaton.WellFormed := by
  obtain ⟨counts, hoffsets, hlength, hsum⟩ := h.offsets_eq
  refine ⟨?_, ?_, ?_, ?_, h.size_pos, h.target_lt, fun state hstate => (mem_finals.1 hstate).1⟩
  · rw [hoffsets, runningSums_eq]
    rfl
  · rw [hoffsets]
    exact (pairwise_runningSums 0 counts).1
  · rw [hoffsets, length_runningSums, hlength]
  · rw [hoffsets, getLast?_runningSums, Nat.zero_add, hsum]

/-- **Just the well-formed automata whose numbers fit can be stored.** -/
lemma storable_iff : automaton.Storable ↔ automaton.WellFormed ∧ automaton.FitsWords := by
  constructor
  · intro h
    exact ⟨h.wellFormed, h.size_lt, h.table_lt, h.symbol_lt⟩
  · rintro ⟨h, hfits⟩
    refine ⟨?_, h.initial_lt, hfits.states, hfits.arcs, hfits.symbol, h.target_lt⟩
    obtain ⟨rest, hrest⟩ := List.head?_eq_some_iff.1 h.first
    have hsums := runningSums_gaps (hrest ▸ h.ascending)
    have hlength := congrArg List.length hsums
    have hlast := getLast?_runningSums 0 (gaps (0 :: rest))
    rw [length_runningSums, ← hrest, h.length] at hlength
    rw [hsums, ← hrest, h.last, Option.some.injEq, Nat.zero_add] at hlast
    refine ⟨gaps automaton.offsets, ?_, Nat.add_right_cancel hlength, ?_⟩
    · rw [hrest, hsums]
    · rw [hlast]

/-! ## Looking up arcs -/

/-- The arcs of a state can be looked up: its part of the table begins and ends within it. -/
def SliceInRange (automaton : Automaton) (state : Nat) : Prop :=
  ∃ first behind, automaton.offsets[state]? = some first ∧
    automaton.offsets[state + 1]? = some behind ∧ first ≤ behind ∧ behind ≤ automaton.table.length

lemma WellFormed.sliceInRange (h : automaton.WellFormed) (hstate : state < automaton.size) :
    automaton.SliceInRange state := by
  have hlength := h.length
  have hascending := List.pairwise_iff_getElem.1 h.ascending
  have hlast := h.last
  rw [List.getLast?_eq_getElem?, hlength, Nat.add_sub_cancel,
    List.getElem?_eq_getElem (by omega), Option.some.injEq] at hlast
  refine ⟨_, _, List.getElem?_eq_getElem (by omega), List.getElem?_eq_getElem (by omega),
    hascending _ _ _ _ (Nat.lt_succ_self state), ?_⟩
  rcases Nat.lt_or_eq_of_le (Nat.succ_le_of_lt hstate) with hlt | heq
  · rw [← hlast]
    exact hascending _ _ _ _ hlt
  · simp only [← hlast, ← heq]
    exact le_refl _

/-- All arcs that are looked up are arcs of the table. -/
lemma mem_table_of_mem_arcs {arc : Arc} (h : arc ∈ automaton.arcs state) :
    arc ∈ automaton.table := by
  rw [arcs] at h
  split at h
  · exact List.mem_of_mem_drop (List.mem_of_mem_take h)
  · exact absurd h List.not_mem_nil

/-! ## Running with any search -/

/-- Where a search for the first arc for a symbol ends among the arcs of a state.  It is the place
of that arc when the arcs are in order, and may be any place when they are not. -/
abbrev Search := List Arc → Nat → Nat

/-- The search that looks at one arc after the other. -/
def Search.inOrder : Search := fun arcs symbol => arcs.findIdx (symbol ≤ ·.symbol)

/-- The states that the arcs for a symbol lead to, from the place where the search ends. -/
def targetsBy (search : Search) (automaton : Automaton) (state symbol : Nat) : List Nat :=
  let arcs := automaton.arcs state
  ((arcs.drop (search arcs symbol)).takeWhile (·.symbol = symbol)).map Arc.target

/-- The states one step on from the active ones. -/
def stepBy (search : Search) (automaton : Automaton) (offered active : List Nat) : List Nat :=
  Ascending.ofList (active.flatMap fun state => offered.flatMap (automaton.targetsBy search state))

/-- The active states after some steps from the start. -/
def runBy (search : Search) (automaton : Automaton) (offers : List Offer) : List Nat :=
  offers.foldl (fun active offer => automaton.stepBy search offer.symbols active) start

lemma targets_eq_targetsBy : automaton.targets = automaton.targetsBy Search.inOrder := by
  funext state symbol
  simp only [targets, targetsBy, Search.inOrder, List.dropWhile_eq_drop_findIdx_not,
    ← decide_not, Nat.not_lt]

/-- An automaton runs with the search that looks at one arc after the other. -/
lemma run_eq_runBy : automaton.run = automaton.runBy Search.inOrder := by
  funext offers
  simp only [run, runBy, step, stepBy, targets_eq_targetsBy]

/-- A run that searches in some way comes only to states whose arcs can be looked up. -/
def RunsInside (automaton : Automaton) : Prop :=
  ∀ (search : Search) (offers : List Offer), ∀ state ∈ automaton.runBy search offers,
    state < automaton.size ∧ automaton.SliceInRange state

lemma WellFormed.lt_of_mem_targetsBy {search : Search} (h : automaton.WellFormed)
    (hq : q ∈ automaton.targetsBy search p symbol) : q < automaton.size := by
  obtain ⟨arc, harc, rfl⟩ := List.mem_map.1 hq
  exact h.target_lt arc
    (mem_table_of_mem_arcs (List.mem_of_mem_drop ((List.takeWhile_sublist _).subset harc)))

lemma WellFormed.lt_of_mem_stepBy {search : Search} {offered active : List Nat}
    (h : automaton.WellFormed) (hq : q ∈ automaton.stepBy search offered active) :
    q < automaton.size := by
  rw [stepBy, Ascending.mem_ofList] at hq
  obtain ⟨p, -, hq⟩ := List.mem_flatMap.1 hq
  obtain ⟨symbol, -, hq⟩ := List.mem_flatMap.1 hq
  exact h.lt_of_mem_targetsBy hq

/-- **A run stays inside.** -/
lemma WellFormed.runsInside (h : automaton.WellFormed) : automaton.RunsInside := by
  intro search offers
  have hlt : ∀ state ∈ automaton.runBy search offers, state < automaton.size := by
    -- Wherever the searches end, each step takes its states from targets of the table.
    refine List.foldlRecOn (motive := fun active => ∀ state ∈ active, state < automaton.size) offers
      _
      ?_ fun active _ offer _ state hstate => h.lt_of_mem_stepBy hstate
    intro state hstate
    rw [List.mem_singleton.1 hstate]
    exact h.initial_lt
  intro state hstate
  exact ⟨hlt state hstate, h.sliceInRange (hlt state hstate)⟩

end LexicalSelection.Automaton
