import LexicalSelection.Proofs.Automaton.Layout

/-!
# Which states are active

Where a run is after some steps is the set of the states at the ends of paths that take, step by
step, an arc for one of the offered symbols.  The arcs of an automaton that is laid out as it was
built are those that were asked for, however often.  They are looked up by halving, as in any row in
order.

* `Graph.BuiltWith` — a graph that has been built, and the arcs that were asked for.
* `mem_arcs_of_builtWith` — these are its arcs.
* `Search.halving` — looking up arcs by halving a row.
* **`runBy_halving`** — when the arcs are in order, it finds what looking at one after the other
  finds.
* `Leads` — the steps that a run can take.
* **`run_follows_arcs`** — the active states of an automaton that has been built or minimized.
-/

namespace LexicalSelection

namespace Graph

variable {graph : Graph} {given : List (Nat × Arc)}

/-! ## Arcs that were asked for -/

/-- The graphs that the building steps lead to, and the arcs that the steps ask for, each behind the
state that it leaves. -/
inductive BuiltWith : List (Nat × Arc) → Graph → Prop
  | start : BuiltWith [] .start
  | addState {given : List (Nat × Arc)} {graph : Graph} (h : BuiltWith given graph) :
      BuiltWith given graph.addState.2
  | addArc {given : List (Nat × Arc)} {graph : Graph} (h : BuiltWith given graph) {source : Nat}
      (hsource : source < graph.size) (symbol : Nat) :
      BuiltWith (given ++ [(source, ⟨symbol, graph.size⟩)]) (graph.addArc source symbol).2
  | link {given : List (Nat × Arc)} {graph : Graph} (h : BuiltWith given graph)
      {source target : Nat}
      (hsource : source < graph.size) (htarget : target < graph.size) (symbol : Nat) :
      BuiltWith (given ++ [(source, ⟨symbol, target⟩)]) (graph.link source target symbol)
  | setFinal {given : List (Nat × Arc)} {graph : Graph} (h : BuiltWith given graph) {state : Nat}
      (hstate : state < graph.size) : BuiltWith given (graph.setFinal state)

/-- Every graph that is built is built with some arcs. -/
lemma built_iff : graph.Built ↔ ∃ given, BuiltWith given graph := by
  constructor
  · intro h
    induction h with
    | start => exact ⟨_, .start⟩
    | addState _ ih => exact ⟨_, ih.choose_spec.addState⟩
    | addArc _ hsource symbol ih => exact ⟨_, ih.choose_spec.addArc hsource symbol⟩
    | link _ hsource htarget symbol ih => exact ⟨_, ih.choose_spec.link hsource htarget symbol⟩
    | setFinal _ hstate ih => exact ⟨_, ih.choose_spec.setFinal hstate⟩
  · rintro ⟨given, h⟩
    induction h with
    | start => exact .start
    | addState _ ih => exact ih.addState
    | addArc _ hsource symbol ih => exact ih.addArc hsource symbol
    | link _ hsource htarget symbol ih => exact ih.link hsource htarget symbol
    | setFinal _ hstate ih => exact ih.setFinal hstate

/-- **A built graph has the arcs that were asked for, and no others.** -/
lemma mem_arcs_of_builtWith (h : BuiltWith given graph) (p : Nat) (arc : Arc) :
    arc ∈ graph.arcs p ↔ (p, arc) ∈ given := by
  induction h with
  | start => cases p <;> simp [Graph.start, arcs]
  | addState _ ih => rw [arcs_addState, ih]
  | addArc _ hsource symbol ih =>
      rw [mem_arcs_addArc hsource, ih, List.mem_append, List.mem_singleton, Prod.mk.injEq, or_comm]
  | link _ hsource _ symbol ih =>
      rw [mem_arcs_link hsource, ih, List.mem_append, List.mem_singleton, Prod.mk.injEq, or_comm]
  | setFinal _ _ ih => rw [arcs_setFinal, ih]

lemma compare_arc_of_lt {arc arc' : Arc} (h : arc.symbol < arc'.symbol) : compare arc arc' = .lt :=
  Ordering.then_eq_lt.2 (Or.inl (Nat.compare_eq_lt.2 h))

/-- The arcs of the deterministic graph are in order too. -/
lemma sorted_determinize (hclosed : graph.Closed) : graph.determinize.Sorted := by
  intro p
  rw [arcs]
  cases hnode : graph.determinize.nodes[p]? with
  | none => exact List.Pairwise.nil
  | some node =>
      exact (pairwise_arcs_determinize hclosed (List.mem_of_getElem? hnode)).imp compare_arc_of_lt

lemma sorted_minimize (hclosed : graph.Closed) : graph.minimize.Sorted :=
  sorted_determinize (closed_reverse (closed_determinize (closed_reverse hclosed)))

end Graph

namespace Automaton

variable {graph : Graph} {automaton : Automaton} {p q symbol : Nat} {offers : List Offer}
  {arcs : List Arc}

/-! ## Looking up by halving -/

/-- The first place behind the low things of a row of which all low ones come first, when it is one
of the places from `first` up to `size` places later. -/
def bisect (low : Arc → Bool) (arcs : List Arc) (first size : Nat) : Nat :=
  if size ≤ 1 then if (arcs[first]?).any low then first + 1 else first
  else if (arcs[first + size / 2]?).any low then
    bisect low arcs (first + size / 2) (size - size / 2)
  else bisect low arcs first (size - size / 2)
termination_by size

/-- The search that halves the arcs of a state. -/
def Search.halving : Search := fun arcs symbol =>
  bisect (fun arc => arc.symbol < symbol) arcs 0 arcs.length

lemma bisect_eq {low : Arc → Bool} {cut first size : Nat}
    (hlow : ∀ place, (arcs[place]?).any low = decide (place < cut)) (hfirst : first ≤ cut)
    (hcut : cut ≤ first + size) : bisect low arcs first size = cut := by
  fun_induction bisect low arcs first size with
  | case1 first size hsize hany =>
      rw [hlow, decide_eq_true_eq] at hany
      omega
  | case2 first size hsize hany =>
      rw [hlow, decide_eq_true_eq] at hany
      omega
  | case3 first size hsize hany ih =>
      rw [hlow, decide_eq_true_eq] at hany
      exact ih (by omega) (by omega)
  | case4 first size hsize hany ih =>
      rw [hlow, decide_eq_true_eq] at hany
      exact ih hfirst (by omega)

/-- Of arcs in order, those with a smaller symbol come before the first one without. -/
lemma any_smaller_eq (h : arcs.Pairwise fun arc arc' => arc.symbol ≤ arc'.symbol)
    (symbol place : Nat) : (arcs[place]?).any (fun arc => arc.symbol < symbol)
      = decide (place < Search.inOrder arcs symbol) := by
  induction arcs generalizing place with
  | nil => simp [Search.inOrder]
  | cons arc arcs ih =>
      obtain ⟨hle, harcs⟩ := List.pairwise_cons.1 h
      rcases Nat.lt_or_ge arc.symbol symbol with hlt | hge
      · have hinOrder : Search.inOrder (arc :: arcs) symbol = Search.inOrder arcs symbol + 1 := by
          simp [Search.inOrder, List.findIdx_cons, Nat.not_le.2 hlt]
        cases place with
        | zero => simp [hinOrder, hlt]
        | succ place => simp [hinOrder, ih harcs]
      · have hinOrder : Search.inOrder (arc :: arcs) symbol = 0 := by
          simp [Search.inOrder, List.findIdx_cons, hge]
        have hnone : ∀ arc' ∈ arc :: arcs, symbol ≤ arc'.symbol :=
          List.forall_mem_cons.2 ⟨hge, fun arc' harc' => hge.trans (hle arc' harc')⟩
        rw [hinOrder, decide_eq_false (Nat.not_lt_zero place), Option.any_eq_false]
        intro arc' harc'
        simpa using hnone arc' (List.mem_of_getElem? harc')

lemma halving_eq_inOrder (h : arcs.Pairwise fun arc arc' => arc.symbol ≤ arc'.symbol)
    (symbol : Nat) : Search.halving arcs symbol = Search.inOrder arcs symbol := by
  refine bisect_eq (any_smaller_eq h symbol) (Nat.zero_le _) ?_
  rw [Nat.zero_add]
  exact List.findIdx_le_length

/-- **Halving finds the same arcs** when they are in order. -/
lemma runBy_halving (h : automaton.Ordered) : automaton.runBy Search.halving = automaton.run := by
  have htargets : automaton.targetsBy Search.halving = automaton.targetsBy Search.inOrder := by
    funext state symbol
    rw [targetsBy, targetsBy, halving_eq_inOrder (h state)]
  rw [run_eq_runBy]
  funext offers
  simp only [runBy, stepBy, htargets]

/-! ## Steps that a run can take -/

/-- A run can come from one state to another when each step takes an arc for a symbol that it
offers. -/
inductive Leads (automaton : Automaton) : Nat → List Offer → Nat → Prop
  | here (p : Nat) : Leads automaton p [] p
  | along {p q r symbol : Nat} {offer : Offer} {offers : List Offer}
      (harc : ⟨symbol, q⟩ ∈ automaton.arcs p) (hoffered : symbol ∈ offer.symbols)
      (h : Leads automaton q offers r) : Leads automaton p (offer :: offers) r

/-- It does so on a path of a graph that is laid out. -/
lemma leads_ofGraph_iff : (ofGraph graph).Leads p offers q ↔
    ∃ word, List.Forall₂ (· ∈ ·) word (offers.map Offer.symbols) ∧ graph.Path p word q := by
  constructor
  · intro h
    induction h with
    | here p => exact ⟨[], .nil, .nil p⟩
    | along harc hoffered _ ih =>
        obtain ⟨word, hword, path⟩ := ih
        exact ⟨_, .cons hoffered hword, .cons (arcs_ofGraph _ ▸ harc) path⟩
  · rintro ⟨word, hword, path⟩
    induction path generalizing offers with
    | nil p =>
        obtain rfl : offers = [] := by simpa using hword
        exact .here p
    | cons arc _ ih =>
        obtain ⟨symbols, more, hsymbol, hword, hoffers⟩ := List.forall₂_cons_left_iff.1 hword
        obtain ⟨offer, offers, rfl, rfl, rfl⟩ := List.map_eq_cons_iff.1 hoffers
        exact .along ((arcs_ofGraph _).symm ▸ arc) hsymbol (ih hword)

/-- **The active states are those that a run can come to.** -/
lemma mem_run_ofGraph (hordered : (ofGraph graph).Ordered) :
    q ∈ (ofGraph graph).run offers ↔ (ofGraph graph).Leads initial offers q := by
  have hrun : (ofGraph graph).run offers = (offers.map Offer.symbols).foldl
      (fun active symbols => (ofGraph graph).step symbols active) start := by
    rw [List.foldl_map]
    rfl
  rw [hrun, mem_foldl_step hordered (funext arcs_ofGraph), leads_ofGraph_iff, start]
  simp only [List.mem_singleton, exists_eq_left]

lemma pairwise_run (automaton : Automaton) (offers : List Offer) :
    (automaton.run offers).Pairwise (· < ·) := by
  refine List.foldlRecOn (motive := fun active : List Nat => active.Pairwise (· < ·)) offers _
    (List.pairwise_singleton _ _) fun active _ offer _ => ?_
  exact (Ascending.strict_ofList _).imp fun hlt => Nat.compare_eq_lt.1 hlt

lemma run_append (automaton : Automaton) (offers more : List Offer) :
    automaton.run (offers ++ more)
      = more.foldl (fun active offer => automaton.step offer.symbols active)
          (automaton.run offers) := by
  rw [run, List.foldl_append]
  rfl

/-- A run that has no active state never has one again. -/
lemma run_append_of_dead (h : automaton.run offers = []) (more : List Offer) :
    automaton.run (offers ++ more) = [] := by
  rw [run_append, h]
  induction more with
  | nil => rfl
  | cons offer more ih => exact ih

/-! ## Looking up -/

/-- The states that the arcs for a symbol lead to come in ascending order, each of them once. -/
lemma pairwise_targets (h : Ascending.Strict (automaton.arcs p)) (symbol : Nat) :
    (automaton.targets p symbol).Pairwise (· < ·) := by
  have hordered : (automaton.arcs p).Pairwise fun arc arc' => arc.symbol ≤ arc'.symbol :=
    h.imp compare_arc_lt
  rw [targets, takeWhile_dropWhile_eq_filter hordered, List.pairwise_map]
  refine (h.filter _).imp_of_mem fun harc harc' hlt => ?_
  have hsymbol := of_decide_eq_true (List.mem_filter.1 harc).2
  have hsymbol' := of_decide_eq_true (List.mem_filter.1 harc').2
  rcases Ordering.then_eq_lt.1 hlt with hsymbols | ⟨-, htargets⟩
  · exact absurd (Nat.compare_eq_lt.1 hsymbols) (by simp [hsymbol, hsymbol'])
  · exact Nat.compare_eq_lt.1 htargets

/-- **The active states of an automaton** that has been built, or built and minimized.  Built as it
is, it has the arcs that were asked for, and no others.  Each arc is listed once and found once by
its symbol.  After any steps the active states are, in ascending order, those at the ends of the
paths from the start that take an arc for one of the offered symbols in each step; and where none is
active, none is active any more.  Looking arcs up by halving leads to the same states. -/
theorem run_follows_arcs {given : List (Nat × Arc)} (h : graph.BuiltWith given) :
    (∀ p arc, arc ∈ (ofGraph graph).arcs p ↔ (p, arc) ∈ given) ∧
    ∀ automaton, automaton = ofGraph graph ∨ automaton = ofGraph graph.minimize →
      (∀ p, Ascending.Strict (automaton.arcs p)) ∧
      (∀ p symbol, (automaton.targets p symbol).Pairwise (· < ·) ∧
        ∀ q, q ∈ automaton.targets p symbol ↔ ⟨symbol, q⟩ ∈ automaton.arcs p) ∧
      (∀ offers, (automaton.run offers).Pairwise (· < ·) ∧
        ∀ q, q ∈ automaton.run offers ↔ automaton.Leads initial offers q) ∧
      (∀ offers more, automaton.run offers = [] → automaton.run (offers ++ more) = []) ∧
      automaton.runBy Search.halving = automaton.run := by
  obtain ⟨hclosed, hsorted, -⟩ := (Graph.built_iff.2 ⟨given, h⟩).spec
  refine ⟨fun p arc => arcs_ofGraph p ▸ Graph.mem_arcs_of_builtWith h p arc, ?_⟩
  intro automaton hautomaton
  obtain ⟨laid, rfl, hlaid⟩ : ∃ laid : Graph, automaton = ofGraph laid ∧ laid.Sorted := by
    rcases hautomaton with rfl | rfl
    · exact ⟨graph, rfl, hsorted⟩
    · exact ⟨graph.minimize, rfl, Graph.sorted_minimize hclosed⟩
  have hordered := ordered_ofGraph hlaid
  have hstrict : ∀ p, Ascending.Strict ((ofGraph laid).arcs p) := fun p =>
    (arcs_ofGraph p).symm ▸ hlaid p
  refine ⟨hstrict, fun p symbol => ⟨pairwise_targets (hstrict p) symbol, fun q => ?_⟩,
    fun offers => ⟨pairwise_run _ offers, fun q => mem_run_ofGraph hordered⟩,
    fun offers more hdead => run_append_of_dead hdead more, runBy_halving hordered⟩
  exact mem_targets hordered

/-- Two arcs for one symbol leave the start, one of them asked for twice, and a loop takes a
wildcard.  The first step follows both arcs, the second one the loop, and a third one leaves no
active state. -/
theorem run_follows_arcs_two_ways :
    let graph := ((((Graph.start.addArc 0 5).2.addArc 0 5).2.link 1 1 0).link 0 2 5).setFinal 1
    let given : List (Nat × Arc) := [(0, ⟨5, 1⟩), (0, ⟨5, 2⟩), (1, ⟨0, 1⟩), (0, ⟨5, 2⟩)]
    let offers : List Offer := [.just 5, .either (some 7) 0]
    graph.BuiltWith given ∧ (ofGraph graph).targets 0 5 = [1, 2] ∧
      (ofGraph graph).Leads initial offers 1 ∧ ¬ (ofGraph graph).Leads initial offers 2 ∧
      (ofGraph graph.minimize).run offers = [1] ∧
      (ofGraph graph.minimize).run (offers ++ [.just 5] ++ offers) = [] := by
  intro graph given offers
  have hbuilt : graph.BuiltWith given :=
    .setFinal (.link (.link (.addArc (.addArc .start (by decide) 5) (by decide) 5) (by decide)
      (by decide) 0) (by decide) (by decide) 5) (by decide)
  obtain ⟨-, hautomata⟩ := run_follows_arcs hbuilt
  obtain ⟨-, -, hruns, -⟩ := hautomata (ofGraph graph) (Or.inl rfl)
  obtain ⟨-, -, -, hdead, -⟩ := hautomata (ofGraph graph.minimize) (Or.inr rfl)
  have hrun : (ofGraph graph).run offers = [1] := by decide +kernel
  refine ⟨hbuilt, by decide +kernel, ?_, ?_, by decide +kernel,
    hdead _ offers (by decide +kernel)⟩
  · rw [← (hruns offers).2, hrun]
    exact List.mem_singleton_self 1
  · rw [← (hruns offers).2, hrun]
    decide

end Automaton

end LexicalSelection
