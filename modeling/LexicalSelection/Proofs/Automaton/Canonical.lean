import LexicalSelection.Automaton.Binary
import LexicalSelection.Proofs.Automaton.Deterministic
import LexicalSelection.Proofs.Automaton.Minimizing

/-!
# The smallest graph depends on the words alone

Two graphs with the same words are minimized to one and the same graph.  The last subset
construction runs over two separated graphs then, and both runs are followed side by side: their
known sets have the same words, place by place, so they take steps for the same symbols, and a set
is new in one run just when it is new in the other.

* `SameWords` — sets of states of two graphs with the same words.
* `forall₂_moves` — such sets have steps for the same symbols, to sets with the same words.
* `numberMoves_eq` — the sets that the steps lead to get the same numbers.
* **`explore_eq`** — so the two constructions make the same states.
* **`ofGraph_minimize_eq_iff`** — the smallest automata of two graphs are equal just when the graphs
  accept the same words.
-/

namespace LexicalSelection

namespace Graph

variable {graph graph' : Graph} {subset subset' : List Nat} {known known' : List (List Nat)}
  {symbol : Nat}

/-- Sets of states, each of its own graph, with the same words. -/
def SameWords (graph graph' : Graph) (subset subset' : List Nat) : Prop :=
  ∀ word, graph.AcceptsFromSome subset word ↔ graph'.AcceptsFromSome subset' word

/-- Steps for the same symbol, to sets with the same words. -/
def SameMove (graph graph' : Graph) (move move' : Nat × List Nat) : Prop :=
  move.1 = move'.1 ∧ SameWords graph graph' move.2 move'.2

/-- The known sets of two constructions have the same words, place by place. -/
structure Alike (graph graph' : Graph) (known known' : List (List Nat)) : Prop where
  left : graph.Known known
  right : graph'.Known known'
  words : List.Forall₂ (SameWords graph graph') known known'

/-! ## Steps side by side -/

/-- There is a step for each symbol that some word of the set begins with. -/
lemma mem_keys_moves (hclosed : graph.Closed) (hseparated : graph.Separated) :
    symbol ∈ (graph.moves subset).map Prod.fst
      ↔ ∃ word, graph.AcceptsFromSome subset (symbol :: word) := by
  simp only [acceptsFromSome_cons, List.mem_map, Prod.exists, exists_and_right, exists_eq_right]
  constructor
  · rintro ⟨targets, hmove⟩
    obtain ⟨word, haccepts⟩ := hseparated.exists_acceptsFromSome
      (isStateSet_of_mem_moves hclosed hmove) (ne_nil_of_mem_moves hmove)
    exact ⟨word, targets, hmove, haccepts⟩
  · rintro ⟨word, targets, hmove, -⟩
    exact ⟨targets, hmove⟩

lemma strict_keys_moves : Ascending.Strict ((graph.moves subset).map Prod.fst) :=
  List.pairwise_map.2 (strictKeys_gather _)

/-- The words of a step are those that its symbol continues with. -/
lemma acceptsFromSome_of_mem_moves {targets word : List Nat}
    (h : (symbol, targets) ∈ graph.moves subset) :
    graph.AcceptsFromSome targets word ↔ graph.AcceptsFromSome subset (symbol :: word) := by
  rw [acceptsFromSome_cons]
  constructor
  · exact fun haccepts => ⟨targets, h, haccepts⟩
  · rintro ⟨targets', hmove, haccepts⟩
    have hsame : targets = targets' := Ascending.eq_of_mem_iff (mem_moves h).1 (mem_moves hmove).1
      fun q => ((mem_moves h).2 q).trans ((mem_moves hmove).2 q).symm
    rwa [hsame]

lemma forall₂_of_map_fst_eq {α β κ : Type} {r : α → β → Prop} {xs : List (κ × α)}
    {ys : List (κ × β)} (hkeys : xs.map Prod.fst = ys.map Prod.fst)
    (h : ∀ k a b, (k, a) ∈ xs → (k, b) ∈ ys → r a b) :
    List.Forall₂ (fun x y => x.1 = y.1 ∧ r x.2 y.2) xs ys := by
  induction xs generalizing ys with
  | nil =>
      obtain rfl := List.map_eq_nil_iff.1 hkeys.symm
      exact .nil
  | cons x xs ih =>
      obtain ⟨y, ys, rfl, hfst, hrest⟩ := List.map_eq_cons_iff.1 hkeys.symm
      obtain ⟨k, b⟩ := y
      obtain rfl : k = x.1 := hfst
      refine .cons ⟨rfl, h x.1 x.2 b List.mem_cons_self List.mem_cons_self⟩ (ih hrest.symm ?_)
      intro k a b ha hb
      exact h k a b (List.mem_cons_of_mem _ ha) (List.mem_cons_of_mem _ hb)

section Separated

variable (hclosed : graph.Closed) (hclosed' : graph'.Closed) (hseparated : graph.Separated)
  (hseparated' : graph'.Separated)
include hclosed hclosed' hseparated hseparated'

/-- **Sets with the same words take the same steps**: for the same symbols, and to sets with the
same words. -/
lemma forall₂_moves (h : SameWords graph graph' subset subset') :
    List.Forall₂ (SameMove graph graph') (graph.moves subset) (graph'.moves subset') := by
  refine forall₂_of_map_fst_eq ?_ fun symbol targets targets' hmove hmove' word => ?_
  · refine Ascending.eq_of_mem_iff strict_keys_moves strict_keys_moves fun symbol => ?_
    rw [mem_keys_moves hclosed hseparated, mem_keys_moves hclosed' hseparated']
    exact exists_congr fun word => h (symbol :: word)
  · rw [acceptsFromSome_of_mem_moves hmove, acceptsFromSome_of_mem_moves hmove', h]

end Separated

/-! ## Numbers side by side -/

lemma idxOf?_eq_of_forall₂ {α β : Type} [BEq α] [LawfulBEq α] [BEq β] [LawfulBEq β]
    {r : α → β → Prop} {xs : List α} {ys : List β} {a : α} {b : β} (h : List.Forall₂ r xs ys)
    (hsame : ∀ x ∈ xs, ∀ y ∈ ys, r x y → (x = a ↔ y = b)) : xs.idxOf? a = ys.idxOf? b := by
  induction h with
  | nil => rfl
  | @cons x y xs ys hr _ ih =>
      have hhead : (x == a) = (y == b) := by
        rw [Bool.eq_iff_iff, beq_iff_eq, beq_iff_eq]
        exact hsame x List.mem_cons_self y List.mem_cons_self hr
      have hrest := ih fun x hx y hy =>
        hsame x (List.mem_cons_of_mem _ hx) y (List.mem_cons_of_mem _ hy)
      rw [List.idxOf?_cons, List.idxOf?_cons, hhead, hrest]

section Numbers

variable (hseparated : graph.Separated) (hseparated' : graph'.Separated)
include hseparated hseparated'

/-- A set is known to one construction just when the set with the same words is known to the other,
and under the same number. -/
lemma Alike.idxOf?_eq (h : Alike graph graph' known known') (hset : graph.IsStateSet subset)
    (hset' : graph'.IsStateSet subset') (hwords : SameWords graph graph' subset subset') :
    known.idxOf? subset = known'.idxOf? subset' := by
  refine idxOf?_eq_of_forall₂ h.words fun s hs s' hs' hsame => ⟨?_, ?_⟩
  · rintro rfl
    refine hseparated'.eq_of_sameWords (h.right.isStateSet hs') hset' fun word => ?_
    rw [← hsame, hwords]
  · rintro rfl
    refine hseparated.eq_of_sameWords (h.left.isStateSet hs) hset fun word => ?_
    rw [hsame, hwords]

lemma Alike.numberSubset (h : Alike graph graph' known known') (hset : graph.IsStateSet subset)
    (hset' : graph'.IsStateSet subset') (hwords : SameWords graph graph' subset subset') :
    (numberSubset known subset).1 = (numberSubset known' subset').1 ∧
      Alike graph graph' (numberSubset known subset).2 (numberSubset known' subset').2 := by
  obtain ⟨-, hleft, -⟩ := numberSubset_spec h.left hset.strict hset.lt_size
  obtain ⟨-, hright, -⟩ := numberSubset_spec h.right hset'.strict hset'.lt_size
  have hnumber := h.idxOf?_eq hseparated hseparated' hset hset' hwords
  refine ⟨?_, hleft, hright, ?_⟩
  · simp only [Graph.numberSubset, hnumber, h.words.length_eq]
    split <;> rfl
  · simp only [Graph.numberSubset, hnumber]
    split
    · exact h.words
    · exact List.rel_append h.words (.cons hwords .nil)

/-- **Steps that are the same get the same numbers**, and the constructions stay alike. -/
lemma Alike.numberMoves {moves moves' : List (Nat × List Nat)}
    (h : Alike graph graph' known known')
    (hmoves : List.Forall₂ (SameMove graph graph') moves moves')
    (hsets : ∀ move ∈ moves, graph.IsStateSet move.2)
    (hsets' : ∀ move ∈ moves', graph'.IsStateSet move.2) :
    (numberMoves known moves).1 = (numberMoves known' moves').1 ∧
      Alike graph graph' (numberMoves known moves).2 (numberMoves known' moves').2 := by
  induction hmoves generalizing known known' with
  | nil => exact ⟨rfl, h⟩
  | @cons move move' moves moves' hmove _ ih =>
      obtain ⟨symbol, subset⟩ := move
      obtain ⟨symbol', subset'⟩ := move'
      obtain ⟨rfl, hwords⟩ := hmove
      obtain ⟨hset, hsets⟩ := List.forall_mem_cons.1 hsets
      obtain ⟨hset', hsets'⟩ := List.forall_mem_cons.1 hsets'
      obtain ⟨hnumber, halike⟩ := h.numberSubset hseparated hseparated' hset hset' hwords
      obtain ⟨harcs, halike'⟩ := ih halike hsets hsets'
      simp only [Graph.numberMoves]
      exact ⟨by rw [hnumber, harcs], halike'⟩

end Numbers

/-! ## Rounds side by side -/

lemma explore_of_length_le (rounds : Nat) {done : List Node} (h : known.length ≤ done.length) :
    graph.explore rounds done known = done := by
  cases rounds with
  | zero => rfl
  | succ rounds => simp [explore, List.getElem?_eq_none_iff.2 h]

lemma explore_of_getElem? (rounds : Nat) {done : List Node}
    (h : known[done.length]? = some subset) :
    graph.explore (rounds + 1) done known
      = graph.explore rounds
        (done ++ [{ arcs := (numberMoves known (graph.moves subset)).1,
                    final := subset.any graph.isFinal }])
        (numberMoves known (graph.moves subset)).2 := by
  simp [explore, h]

section Rounds

variable (hclosed : graph.Closed) (hclosed' : graph'.Closed) (hseparated : graph.Separated)
  (hseparated' : graph'.Separated)
include hclosed hclosed' hseparated hseparated'

/-- **Two constructions that are alike make the same states**, when both have rounds enough. -/
lemma explore_eq (rounds rounds' : Nat) {done : List Node}
    (h : Alike graph graph' known known') (hrounds : 2 ^ graph.size ≤ done.length + rounds)
    (hrounds' : 2 ^ graph'.size ≤ done.length + rounds') :
    graph.explore rounds done known = graph'.explore rounds' done known' := by
  have hlength : known.length = known'.length := h.words.length_eq
  induction rounds generalizing rounds' done known known' with
  | zero =>
      have hle : known.length ≤ done.length := (length_known_le h.left).trans hrounds
      rw [explore_of_length_le 0 hle, explore_of_length_le rounds' (hlength ▸ hle)]
  | succ rounds ih =>
      rcases Nat.lt_or_ge done.length known.length with hlt | hle
      · have hlt' : done.length < known'.length := hlength ▸ hlt
        have hnext := List.getElem?_eq_getElem hlt
        have hnext' := List.getElem?_eq_getElem hlt'
        have hwords : SameWords graph graph' known[done.length] known'[done.length] :=
          h.words.get hlt hlt'
        -- A set is left for which there is no state, so the other construction has a round left,
        -- too.
        have hleft : done.length < 2 ^ graph'.size := hlt'.trans_le (length_known_le h.right)
        obtain ⟨more, rfl⟩ : ∃ more, rounds' = more + 1 := ⟨rounds' - 1, by omega⟩
        obtain ⟨harcs, halike⟩ := h.numberMoves hseparated hseparated'
          (forall₂_moves hclosed hclosed' hseparated hseparated' hwords)
          (fun _ hmove => isStateSet_of_mem_moves hclosed hmove)
          (fun _ hmove => isStateSet_of_mem_moves hclosed' hmove)
        have hfinal : known[done.length].any graph.isFinal
            = known'[done.length].any graph'.isFinal := by
          rw [Bool.eq_iff_iff, ← acceptsFromSome_nil, ← acceptsFromSome_nil]
          exact hwords []
        rw [explore_of_getElem? rounds hnext, explore_of_getElem? more hnext', ← harcs, ← hfinal]
        refine ih more halike ?_ ?_ halike.words.length_eq
        · rw [List.length_append, List.length_singleton]
          omega
        · rw [List.length_append, List.length_singleton]
          omega
      · rw [explore_of_length_le _ hle, explore_of_length_le rounds' (hlength ▸ hle)]

/-- Separated graphs with the same words are determinized to the same graph. -/
lemma determinize_eq (h : ∀ word, graph.Accepts word ↔ graph'.Accepts word) :
    graph.determinize = graph'.determinize := by
  have hstart : SameWords graph graph' (Ascending.ofList graph.initials)
      (Ascending.ofList graph'.initials) := by
    intro word
    simp only [AcceptsFromSome, Ascending.mem_ofList]
    exact h word
  have halike : Alike graph graph' [Ascending.ofList graph.initials]
      [Ascending.ofList graph'.initials] :=
    ⟨(exploring_start hclosed).sets, (exploring_start hclosed').sets, .cons hstart .nil⟩
  rw [determinize, determinize, explore_eq hclosed hclosed' hseparated hseparated'
    (twoTo graph.size) (twoTo graph'.size) halike (by simp) (by simp)]

end Rounds

/-! ## The smallest graph -/

/-- **Graphs with the same words are minimized to the same graph.** -/
lemma minimize_eq (hclosed : graph.Closed) (hclosed' : graph'.Closed)
    (h : ∀ word, graph.Accepts word ↔ graph'.Accepts word) : graph.minimize = graph'.minimize := by
  have hreverse := closed_reverse hclosed
  have hreverse' := closed_reverse hclosed'
  have hdeterminize := closed_determinize hreverse
  have hdeterminize' := closed_determinize hreverse'
  refine determinize_eq (closed_reverse hdeterminize) (closed_reverse hdeterminize')
    (separated_reverse_determinize hreverse) (separated_reverse_determinize hreverse')
    fun word => ?_
  rw [accepts_reverse hdeterminize, accepts_reverse hdeterminize', accepts_determinize hreverse,
    accepts_determinize hreverse', accepts_reverse hclosed, accepts_reverse hclosed', h]

lemma initials_determinize (graph : Graph) : graph.determinize.initials = [0] := rfl

/-- The words of a graph can be read off its arcs, final states and initial states. -/
lemma accepts_congr (hinitials : graph.initials = graph'.initials)
    (harcs : ∀ p, graph.arcs p = graph'.arcs p) (hfinal : ∀ p, graph.isFinal p = graph'.isFinal p)
    (word : List Nat) : graph.Accepts word ↔ graph'.Accepts word := by
  have hfrom : ∀ p, graph.AcceptsFrom p word ↔ graph'.AcceptsFrom p word := by
    induction word with
    | nil => simp [hfinal]
    | cons symbol word ih => simp [harcs, ih]
  simp only [Accepts, hinitials, hfrom]

end Graph

namespace Automaton

open LexicalSelection.Graph

variable {graph graph' : Graph}

/-- **The smallest automaton is a canonical form.**  The smallest automata of two graphs are equal,
with their numbers, arcs and final states, just when the graphs accept the same words; and then they
are stored in the same bytes. -/
theorem ofGraph_minimize_eq_iff (hclosed : graph.Closed) (hclosed' : graph'.Closed) :
    (ofGraph graph.minimize = ofGraph graph'.minimize
      ↔ ∀ word, graph.Accepts word ↔ graph'.Accepts word) ∧
    ((∀ word, graph.Accepts word ↔ graph'.Accepts word) →
      graph.minimize = graph'.minimize ∧
        (ofGraph graph.minimize).write = (ofGraph graph'.minimize).write) := by
  refine ⟨⟨fun heq word => ?_, fun h => ?_⟩, fun h => ?_⟩
  · have hinitials : graph.minimize.initials = graph'.minimize.initials :=
      (initials_determinize _).trans (initials_determinize _).symm
    have harcs : ∀ p, graph.minimize.arcs p = graph'.minimize.arcs p := by
      intro p
      rw [← arcs_ofGraph, ← arcs_ofGraph, heq]
    have hfinal : ∀ p, graph.minimize.isFinal p = graph'.minimize.isFinal p := by
      intro p
      rw [← isFinal_ofGraph, ← isFinal_ofGraph, heq]
    rw [← accepts_minimize hclosed, ← accepts_minimize hclosed']
    exact accepts_congr hinitials harcs hfinal word
  · rw [minimize_eq hclosed hclosed' h]
  · rw [minimize_eq hclosed hclosed' h]
    exact ⟨rfl, rfl⟩

/-- A graph with a loop and two arcs for one symbol, beside the deterministic graph with the same
words that numbers its states in another way: both lead to one automaton of three states. -/
theorem ofGraph_minimize_eq_loop :
    let graph := (((((Graph.start.addArc 0 5).2.addArc 0 5).2.link 1 1 0).addArc 1 7).2).setFinal 3
    let graph' := graph.determinize
    graph.Closed ∧ graph'.Closed ∧ graph.size = 4 ∧ graph'.size = 4 ∧ graph ≠ graph' ∧
      ofGraph graph.minimize = ofGraph graph'.minimize ∧
      ofGraph graph.minimize
        = { offsets := [0, 1, 3, 3], table := [⟨5, 1⟩, ⟨0, 1⟩, ⟨7, 2⟩]
            finalFlags := [false, false, true] } := by
  intro graph graph'
  have hclosed : graph.Closed := by
    have hbuilt : graph.Built :=
      .setFinal (.addArc (.link (.addArc (.addArc .start (by decide) 5) (by decide) 5) (by decide)
        (by decide) 0) (by decide) 7) (by decide)
    exact hbuilt.spec.1
  have hclosed' : graph'.Closed := closed_determinize hclosed
  have hwords : ∀ word, graph.Accepts word ↔ graph'.Accepts word :=
    fun word => (accepts_determinize hclosed).symm
  exact ⟨hclosed, hclosed', by decide +kernel, by decide +kernel, by decide +kernel,
    (ofGraph_minimize_eq_iff hclosed hclosed').1.2 hwords, by decide +kernel⟩

end Automaton

end LexicalSelection
