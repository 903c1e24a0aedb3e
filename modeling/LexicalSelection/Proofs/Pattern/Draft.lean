import LexicalSelection.Proofs.Pattern.Chain

/-!
# Patterns put together

A draft holds one chain of states for each pattern that has been put in, behind one arc for each
side that the pattern is for.  The chains have no states in common but the start, so that nothing
leaks from one pattern to another.

* `Grown` — a draft that has more states than another, and differs at one of the old ones at most.
* `OpenEnd` — a state with loops only, where the next atom goes on.
* **`chain_finish`** — the building steps make the chain of a pattern.
* `Represents` — the draft for a list of features and patterns.
* **`represents_addPattern`** — adding a pattern keeps the draft in step with the list.
* **`Represents.acceptsVia_iff`** — what such a draft accepts: a side, tokens that a pattern for the
  side describes, and the mark of the feature.
-/

namespace LexicalSelection

variable {alphabet alphabet' : Alphabet} {graph graph' : Graph} {loops atoms : List Atom}
  {state mark p : Nat} {atom : Atom}

/-! ## States that stay as they are -/

/-- The state has the same arcs in both graphs, and is final in both or in none. -/
structure Graph.Agree (graph graph' : Graph) (p : Nat) : Prop where
  arcs : graph'.arcs p = graph.arcs p
  isFinal : graph'.isFinal p = graph.isFinal p

/-- A way stays while its state stays as it is. -/
lemma Leads.mono {way : Arc} (h : Leads graph loops state way) (hagree : graph.Agree graph' state) :
    Leads graph' loops state way where
  ne_start := h.ne_start
  not_final := hagree.isFinal.trans h.not_final
  mem_arcs arc := by rw [hagree.arcs, h.mem_arcs]

lemma Leads.lt_size {way : Arc} (h : Leads graph loops state way) : state < graph.size :=
  Graph.lt_size_of_mem_arcs ((h.mem_arcs way).2 (Or.inr rfl))

/-- A chain stays while all states but the start stay as they are. -/
lemma Chain.mono (h : Chain alphabet graph mark loops atoms state)
    (hextends : alphabet.Extends alphabet')
    (hagree : ∀ p, p ≠ 0 → p < graph.size → graph.Agree graph' p) :
    Chain alphabet' graph' mark loops atoms state := by
  induction h with
  | stop hleads hstart hfinal =>
      have hlast := hagree _ hstart (Graph.lt_size_of_isFinal hfinal)
      exact .stop (hleads.mono (hagree _ hleads.ne_start hleads.lt_size)) hstart
        (hlast.isFinal.trans hfinal)
  | wildcard hatom _ ih => exact .wildcard hatom ih
  | literal hatom hn hleads _ ih =>
      exact .literal hatom (Atom.number?_mono hextends hn)
        (hleads.mono (hagree _ hleads.ne_start hleads.lt_size)) ih

/-! ## One chain -/

/-- The state has nothing but loops for some wildcards, and is neither the start nor final. -/
structure OpenEnd (graph : Graph) (loops : List Atom) (state : Nat) : Prop where
  ne_start : state ≠ 0
  lt_size : state < graph.size
  not_final : graph.isFinal state = false
  mem_arcs : ∀ arc, arc ∈ graph.arcs state ↔ IsLoop loops state arc

lemma isLoop_nil (arc : Arc) : ¬ IsLoop [] state arc := by
  rintro ⟨-, atom, hatom, -⟩
  cases hatom

/-- A new arc from an open end is its only way on. -/
lemma OpenEnd.leads_addArc {n : Nat} (h : OpenEnd graph loops state) :
    Leads (graph.addArc state n).2 loops state ⟨n, graph.size⟩ where
  ne_start := h.ne_start
  not_final := by simpa using h.not_final
  mem_arcs arc := by
    rw [Graph.mem_arcs_addArc h.lt_size, h.mem_arcs, or_comm]
    simp

/-- A wildcard at an open end becomes one of its loops. -/
lemma OpenEnd.link {n : Nat} (h : OpenEnd graph loops state) (hatom : atom.reserved? = some n) :
    OpenEnd (graph.link state state n) (loops ++ [atom]) state where
  ne_start := h.ne_start
  lt_size := by simpa using h.lt_size
  not_final := by simpa using h.not_final
  mem_arcs arc := by
    rw [Graph.mem_arcs_link h.lt_size, h.mem_arcs]
    obtain ⟨symbol, target⟩ := arc
    simp only [IsLoop, List.mem_append, List.mem_singleton, Arc.mk.injEq, true_and]
    constructor
    · rintro (⟨hsymbol, htarget⟩ | ⟨rfl, other, hother, hn⟩)
      · exact ⟨htarget, atom, Or.inr rfl, hsymbol ▸ hatom⟩
      · exact ⟨rfl, other, Or.inl hother, hn⟩
    · rintro ⟨rfl, other, hother | rfl, hn⟩
      · exact Or.inr ⟨rfl, other, hother, hn⟩
      · exact Or.inl ⟨Option.some.inj (hn.symm.trans hatom), rfl⟩

/-- A state that has just been made is an open end. -/
lemma openEnd_addArc {n source : Nat} (hsource : source < graph.size) :
    OpenEnd (graph.addArc source n).2 [] graph.size where
  ne_start := by omega
  lt_size := by simp
  not_final := by
    rw [Graph.isFinal_addArc]
    exact Bool.eq_false_iff.2 fun h => Nat.lt_irrefl _ (Graph.lt_size_of_isFinal h)
  mem_arcs arc := by
    rw [Graph.mem_arcs_addArc hsource]
    constructor
    · rintro (⟨h, -⟩ | harc)
      · omega
      · exact absurd (Graph.lt_size_of_mem_arcs harc) (Nat.lt_irrefl _)
    · exact fun h => absurd h (isLoop_nil arc)

namespace Matcher.Draft

variable {draft draft' draft'' : Draft}

/-- The draft has become another one, in which all states that it had are as they were, save one. -/
structure Grown (state : Nat) (draft draft' : Draft) : Prop where
  extends_alphabet : draft.alphabet.Extends draft'.alphabet
  size_le : draft.graph.size ≤ draft'.graph.size
  initials : draft'.graph.initials = draft.graph.initials
  marks : draft'.marks = draft.marks
  agree : ∀ p, p ≠ state → p < draft.graph.size → draft.graph.Agree draft'.graph p

/-- A draft may go on to grow at the same state, or at one that it did not have. -/
lemma Grown.trans {next : Nat} (h : Grown state draft draft') (h' : Grown next draft' draft'')
    (hnext : next = state ∨ draft.graph.size ≤ next) : Grown state draft draft'' where
  extends_alphabet := h.extends_alphabet.trans h'.extends_alphabet
  size_le := h.size_le.trans h'.size_le
  initials := h'.initials.trans h.initials
  marks := h'.marks.trans h.marks
  agree p hp hlt := by
    have hpnext : p ≠ next := by omega
    have hbefore := h.agree p hp hlt
    have hbehind := h'.agree p hpnext (hlt.trans_le h.size_le)
    exact ⟨hbehind.arcs.trans hbefore.arcs, hbehind.isFinal.trans hbefore.isFinal⟩

/-- The draft with an arc for a mark behind a state, to a new state that is final. -/
def addMark (mark state : Nat) (draft : Draft) : Draft :=
  { draft with graph := (draft.graph.addArc state mark).2.setFinal draft.graph.size }

/-- The draft with some atoms and a mark behind a state. -/
def finish (mark : Nat) (atoms : List Atom) (state : Nat) (draft : Draft) : Draft :=
  (addAtoms atoms state draft).2.addMark mark (addAtoms atoms state draft).1

/-- A loop changes nothing but the state that it is put at. -/
lemma grown_link {target n : Nat} :
    Grown state draft { draft with graph := draft.graph.link state target n } where
  extends_alphabet := .refl _
  size_le := by simp
  initials := rfl
  marks := rfl
  agree _ hp _ := ⟨Graph.arcs_link_of_ne hp, Graph.isFinal_link⟩

/-- A new arc changes nothing but the state that it leaves. -/
lemma grown_addArc {n : Nat} :
    Grown state draft { draft with graph := (draft.graph.addArc state n).2 } where
  extends_alphabet := .refl _
  size_le := by simp
  initials := rfl
  marks := rfl
  agree _ hp _ := ⟨Graph.arcs_addArc_of_ne hp, Graph.isFinal_addArc⟩

/-- Adding a symbol makes a new state behind an arc for its number. -/
lemma exists_addSymbol (draft : Draft) (state : Nat) (symbol : NamedSymbol) : ∃ n next,
    draft.addSymbol symbol state = (draft.graph.size, next) ∧
      next.graph = (draft.graph.addArc state n).2 ∧ next.alphabet.number? symbol = some n ∧
      Grown state draft next := by
  refine ⟨_, _, rfl, rfl, Alphabet.number?_intern symbol draft.alphabet, ?_⟩
  exact { grown_addArc with extends_alphabet := Alphabet.extends_intern symbol draft.alphabet }

/-- A mark changes nothing but the state that it is put at. -/
lemma grown_addMark : Grown state draft (draft.addMark mark state) where
  extends_alphabet := .refl _
  size_le := by simp [addMark]
  initials := rfl
  marks := rfl
  agree p hp hlt := by
    have hnew : p ≠ draft.graph.size := hlt.ne
    refine ⟨?_, ?_⟩
    · simpa [addMark] using Graph.arcs_addArc_of_ne hp
    · simp [addMark, Graph.isFinal_setFinal_of_ne hnew]

/-- A wildcard puts a loop to its state. -/
lemma addAtom_wildcard (draft : Draft) (state : Nat) (hatom : atom.isWildcard = true) :
    ∃ n, atom.reserved? = some n ∧
      draft.addAtom atom state
        = (state, { draft with graph := draft.graph.link state state n }) := by
  cases atom with
  | anyChars => exact ⟨_, rfl, rfl⟩
  | anyTags => exact ⟨_, rfl, rfl⟩
  | char c => simp [Atom.isWildcard] at hatom
  | tag text => simp [Atom.isWildcard] at hatom

/-- A literal goes to a new state, by a symbol that the alphabet has from then on. -/
lemma addAtom_literal (draft : Draft) (state : Nat) (hatom : atom.isWildcard = false) :
    ∃ symbol, draft.addAtom atom state = draft.addSymbol symbol state ∧
      ∀ alphabet : Alphabet, atom.number? alphabet = alphabet.number? symbol := by
  cases atom with
  | char c => exact ⟨_, rfl, fun _ => rfl⟩
  | tag text => exact ⟨_, rfl, fun _ => rfl⟩
  | anyChars => simp [Atom.isWildcard] at hatom
  | anyTags => simp [Atom.isWildcard] at hatom

lemma finish_nil : draft.finish mark [] state = draft.addMark mark state := rfl

lemma finish_cons : draft.finish mark (atom :: atoms) state =
    (draft.addAtom atom state).2.finish mark atoms (draft.addAtom atom state).1 := rfl

/-- A mark at an open end closes the chain. -/
lemma chain_addMark (hopen : OpenEnd draft.graph loops state) :
    Chain (draft.addMark mark state).alphabet (draft.addMark mark state).graph mark loops []
      state := by
  have hlt := hopen.lt_size
  have hsize : draft.graph.size < (draft.graph.addArc state mark).2.size := by simp
  have hnew : draft.graph.size ≠ 0 := by omega
  refine .stop (hopen.leads_addArc.mono ⟨?_, ?_⟩) hnew ?_
  · exact Graph.arcs_setFinal
  · exact Graph.isFinal_setFinal_of_ne hlt.ne
  · exact (Graph.isFinal_setFinal hsize).2 (Or.inl rfl)

/-- **The building steps make the chain of a pattern**, and change no other state. -/
lemma chain_finish (mark : Nat) (atoms : List Atom) (draft : Draft)
    (hopen : OpenEnd draft.graph loops state) (hclosed : draft.graph.Closed) :
    Chain (draft.finish mark atoms state).alphabet (draft.finish mark atoms state).graph mark
        loops atoms state ∧
      Grown state draft (draft.finish mark atoms state) ∧
      (draft.finish mark atoms state).graph.Closed := by
  induction atoms generalizing loops state draft with
  | nil =>
      rw [finish_nil]
      exact ⟨chain_addMark hopen, grown_addMark,
        Graph.closed_setFinal (Graph.closed_addArc hclosed hopen.lt_size)⟩
  | cons atom atoms ih =>
      cases hatom : atom.isWildcard with
      | true =>
          obtain ⟨n, hn, hadd⟩ := addAtom_wildcard draft state hatom
          rw [finish_cons, hadd]
          obtain ⟨hchain, hgrown, hclosed⟩ := ih
            { draft with graph := draft.graph.link state state n } (hopen.link hn)
            (Graph.closed_link hclosed hopen.lt_size hopen.lt_size)
          exact ⟨.wildcard hatom hchain, grown_link.trans hgrown (Or.inl rfl), hclosed⟩
      | false =>
          obtain ⟨symbol, hadd, hnumber⟩ := addAtom_literal draft state hatom
          obtain ⟨n, next, hsymbol, hgraph, hn, hgrown₁⟩ := exists_addSymbol draft state symbol
          have hlt := hopen.lt_size
          rw [finish_cons, hadd, hsymbol]
          have hnext : OpenEnd next.graph [] draft.graph.size := hgraph ▸ openEnd_addArc hlt
          obtain ⟨hchain, hgrown₂, hclosed⟩ :=
            ih next hnext (hgraph ▸ Graph.closed_addArc hclosed hlt)
          have hleads : Leads next.graph loops state ⟨n, draft.graph.size⟩ :=
            hgraph ▸ hopen.leads_addArc
          have hstate := hgrown₂.agree state hlt.ne (hlt.trans_le hgrown₁.size_le)
          refine ⟨.literal hatom ?_ (hleads.mono hstate) hchain,
            hgrown₁.trans hgrown₂ (Or.inr (Nat.le_refl _)), hclosed⟩
          exact (hnumber _).trans (hgrown₂.extends_alphabet _ _ hn)

/-! ## One pattern -/

/-- Is the pattern for the side? -/
def IsSideOf (pattern : Pattern) (side : Side) : Prop := ∀ other ∈ pattern.side, other = side

/-- Where the chain for a pattern of a feature begins. -/
def Begins (draft : Draft) (feature : Nat) (pattern : Pattern) (state : Nat) : Prop :=
  ∃ mark, draft.alphabet.number? (.special, markSpelling feature) = some mark ∧
    Chain draft.alphabet draft.graph mark [] pattern.atoms state

/-- The draft has become another one by a pattern for a feature. -/
structure Added (feature : Nat) (pattern : Pattern) (draft draft' : Draft) : Prop where
  closed : draft'.graph.Closed
  initials : draft'.graph.initials = draft.graph.initials
  start_isFinal : draft'.graph.isFinal 0 = draft.graph.isFinal 0
  extends_alphabet : draft.alphabet.Extends draft'.alphabet
  agree : ∀ p, p ≠ 0 → p < draft.graph.size → draft.graph.Agree draft'.graph p
  begins : draft'.Begins feature pattern draft.graph.size
  mem_arcs : ∀ arc, arc ∈ draft'.graph.arcs 0 ↔ arc ∈ draft.graph.arcs 0 ∨
    ∃ side, IsSideOf pattern side ∧ arc = ⟨sideSymbol side, draft.graph.size⟩
  marks : ∃ mark, draft'.alphabet.number? (.special, markSpelling feature) = some mark ∧
    draft'.marks = (mark, feature) :: draft.marks

/-- The state for the sides of a pattern: a new one, with an arc from the start for each side. -/
lemma addSide_spec (draft : Draft) (pattern : Pattern) (hlt : 0 < draft.graph.size)
    (hclosed : draft.graph.Closed) :
    (draft.addSide pattern.side).1 = draft.graph.size ∧
      OpenEnd (draft.addSide pattern.side).2.graph [] draft.graph.size ∧
      Grown 0 draft (draft.addSide pattern.side).2 ∧
      (draft.addSide pattern.side).2.graph.Closed ∧
      (draft.addSide pattern.side).2.graph.isFinal 0 = draft.graph.isFinal 0 ∧
      ∀ arc, arc ∈ (draft.addSide pattern.side).2.graph.arcs 0 ↔ arc ∈ draft.graph.arcs 0 ∨
        ∃ side, IsSideOf pattern side ∧ arc = ⟨sideSymbol side, draft.graph.size⟩ := by
  have hopen := openEnd_addArc (n := Alphabet.sourceSide) hlt
  cases hside : pattern.side with
  | some named =>
      refine ⟨rfl, openEnd_addArc hlt, grown_addArc, Graph.closed_addArc hclosed hlt,
        Graph.isFinal_addArc, fun arc => ?_⟩
      have hgraph : (draft.addSide (some named)).2.graph
          = (draft.graph.addArc 0 (sideSymbol named)).2 := rfl
      rw [hgraph, Graph.mem_arcs_addArc hlt]
      simp only [IsSideOf, hside, Option.mem_some_iff, forall_eq', exists_eq_left', true_and]
      exact or_comm
  | none =>
      have hgraph : (draft.addSide none).2.graph
          = (draft.graph.addArc 0 Alphabet.sourceSide).2.link 0 draft.graph.size
            Alphabet.targetSide := rfl
      have hlt' : 0 < (draft.graph.addArc 0 Alphabet.sourceSide).2.size := by simp
      have hsize : draft.graph.size < (draft.graph.addArc 0 Alphabet.sourceSide).2.size := by simp
      have hagree : ((draft.graph.addArc 0 Alphabet.sourceSide).2).Agree
          (draft.addSide none).2.graph draft.graph.size :=
        ⟨Graph.arcs_link_of_ne hlt.ne', Graph.isFinal_link⟩
      refine ⟨rfl, ⟨hlt.ne', hsize.trans_eq Graph.size_link.symm, ?_, ?_⟩,
        grown_addArc.trans grown_link (Or.inl rfl), ?_, ?_, fun arc => ?_⟩
      · exact hagree.isFinal.trans hopen.not_final
      · rw [hagree.arcs]
        exact hopen.mem_arcs
      · exact Graph.closed_link (Graph.closed_addArc hclosed hlt) hlt' hsize
      · rw [hgraph, Graph.isFinal_link, Graph.isFinal_addArc]
      · rw [hgraph, Graph.mem_arcs_link hlt', Graph.mem_arcs_addArc hlt]
        simp only [IsSideOf, hside, Option.mem_def, reduceCtorEq, false_implies, implies_true,
          true_and]
        constructor
        · rintro (rfl | rfl | harc)
          · exact Or.inr ⟨.target, rfl⟩
          · exact Or.inr ⟨.source, rfl⟩
          · exact Or.inl harc
        · rintro (harc | ⟨side, rfl⟩)
          · exact Or.inr (Or.inr harc)
          · cases side with
            | source => exact Or.inr (Or.inl rfl)
            | target => exact Or.inl rfl

/-- The draft with the mark of a feature. -/
def withMark (feature : Nat) (draft : Draft) : Draft :=
  { draft with
    alphabet := (draft.alphabet.intern (.special, markSpelling feature)).2
    marks := ((draft.alphabet.intern (.special, markSpelling feature)).1, feature) :: draft.marks }

/-- A pattern is added as a mark to look for, its side and its atoms, in this order. -/
lemma addPattern_eq (feature : Nat) (pattern : Pattern) : draft.addPattern feature pattern =
    ((draft.withMark feature).addSide pattern.side).2.finish
      (draft.alphabet.intern (.special, markSpelling feature)).1 pattern.atoms
      ((draft.withMark feature).addSide pattern.side).1 := rfl

/-- Adding a pattern adds one chain, and leaves all others as they are. -/
lemma added_addPattern (feature : Nat) (pattern : Pattern) (hlt : 0 < draft.graph.size)
    (hclosed : draft.graph.Closed) :
    Added feature pattern draft (draft.addPattern feature pattern) := by
  have hextends := Alphabet.extends_intern (.special, markSpelling feature) draft.alphabet
  have hmark := Alphabet.number?_intern (.special, markSpelling feature) draft.alphabet
  obtain ⟨hstate, hopen, hgrown₁, hclosed, hfinal, harcs⟩ :=
    addSide_spec (draft.withMark feature) pattern hlt hclosed
  rw [addPattern_eq, hstate]
  obtain ⟨hchain, hgrown₂, hclosed⟩ := chain_finish
    (draft.alphabet.intern (.special, markSpelling feature)).1 pattern.atoms _ hopen hclosed
  have hgrown := hgrown₁.trans hgrown₂ (Or.inr (Nat.le_refl _))
  have hstart := hgrown₂.agree 0 hlt.ne (hlt.trans hopen.lt_size)
  have hnumber := hgrown.extends_alphabet _ _ hmark
  exact
    { closed := hclosed
      initials := hgrown.initials
      start_isFinal := hstart.isFinal.trans hfinal
      extends_alphabet := hextends.trans hgrown.extends_alphabet
      agree := hgrown.agree
      begins := ⟨_, hnumber, hchain⟩
      mem_arcs := fun arc => by rw [hstart.arcs, harcs]; rfl
      marks := ⟨_, hnumber, hgrown.marks⟩ }

/-! ## All patterns -/

/-- The draft for some features and patterns. -/
structure Represents (entries : List (Nat × Pattern)) (draft : Draft) : Prop where
  initials : draft.graph.initials = [0]
  closed : draft.graph.Closed
  start_not_final : draft.graph.isFinal 0 = false
  /-- There is an arc to the chain of each pattern. -/
  exists_arc : ∀ feature pattern, (feature, pattern) ∈ entries → ∀ side, IsSideOf pattern side →
    ∃ state, ⟨sideSymbol side, state⟩ ∈ draft.graph.arcs 0 ∧ draft.Begins feature pattern state
  /-- There are no other arcs. -/
  of_arc : ∀ arc ∈ draft.graph.arcs 0, ∃ feature pattern side, (feature, pattern) ∈ entries ∧
    IsSideOf pattern side ∧ arc.symbol = sideSymbol side ∧ draft.Begins feature pattern arc.target
  /-- The mark of each feature is known. -/
  exists_mark : ∀ feature pattern, (feature, pattern) ∈ entries →
    ∃ mark, draft.alphabet.number? (.special, markSpelling feature) = some mark ∧
      draft.marks.lookup mark = some feature
  /-- No other marks are known. -/
  of_mark : ∀ mark feature, draft.marks.lookup mark = some feature →
    draft.alphabet.number? (.special, markSpelling feature) = some mark

/-- A mark belongs to one feature. -/
lemma markSpelling_injective {feature feature' : Nat}
    (h : markSpelling feature = markSpelling feature') : feature = feature' := by
  have hdigits : Nat.toDigits 10 feature = Nat.toDigits 10 feature' :=
    List.append_cancel_left (List.append_cancel_right h)
  rw [← Nat.ofDigitChars_ten_toDigits (n := feature), hdigits, Nat.ofDigitChars_ten_toDigits]

lemma represents_nil : Represents [] {} where
  initials := rfl
  closed := by
    refine ⟨by simp [Graph.start, Graph.size], fun p arc harc => ?_⟩
    obtain ⟨node, hnode, harc⟩ := Graph.mem_arcs.1 harc
    obtain rfl : node = {} := List.mem_singleton.1 (List.mem_of_getElem? hnode)
    cases harc
  start_not_final := rfl
  exists_arc := by simp
  of_arc := by simp [Graph.start, Graph.arcs]
  exists_mark := by simp
  of_mark := by simp

/-- A beginning stays in a larger draft that leaves its states alone. -/
lemma Begins.mono {feature : Nat} {pattern : Pattern} (h : draft.Begins feature pattern state)
    (hextends : draft.alphabet.Extends draft'.alphabet)
    (hagree : ∀ p, p ≠ 0 → p < draft.graph.size → draft.graph.Agree draft'.graph p) :
    draft'.Begins feature pattern state := by
  obtain ⟨mark, hmark, hchain⟩ := h
  exact ⟨mark, hextends _ _ hmark, hchain.mono hextends hagree⟩

/-- **Adding a pattern keeps the draft in step with the list.** -/
lemma represents_addPattern {entries : List (Nat × Pattern)} (h : draft.Represents entries)
    (feature : Nat) (pattern : Pattern) :
    (draft.addPattern feature pattern).Represents (entries ++ [(feature, pattern)]) := by
  have hadded := added_addPattern feature pattern
    (h.closed.initial_lt 0 (by simp [h.initials])) h.closed
  obtain ⟨mark, hmark, hmarks⟩ := hadded.marks
  refine ⟨hadded.initials.trans h.initials, hadded.closed,
    hadded.start_isFinal.trans h.start_not_final, ?_, ?_, ?_, ?_⟩
  · intro f p hmem side hside
    rcases List.mem_append.1 hmem with hmem | hmem
    · obtain ⟨state, harc, hbegins⟩ := h.exists_arc f p hmem side hside
      exact ⟨state, (hadded.mem_arcs _).2 (Or.inl harc),
        hbegins.mono hadded.extends_alphabet hadded.agree⟩
    · obtain ⟨rfl, rfl⟩ := Prod.mk.inj (List.mem_singleton.1 hmem)
      exact ⟨_, (hadded.mem_arcs _).2 (Or.inr ⟨side, hside, rfl⟩), hadded.begins⟩
  · intro arc harc
    rcases (hadded.mem_arcs _).1 harc with harc | ⟨side, hside, rfl⟩
    · obtain ⟨f, p, side, hmem, hside, hsymbol, hbegins⟩ := h.of_arc arc harc
      exact ⟨f, p, side, List.mem_append_left _ hmem, hside, hsymbol,
        hbegins.mono hadded.extends_alphabet hadded.agree⟩
    · exact ⟨feature, pattern, side, by simp, hside, rfl, hadded.begins⟩
  · intro f p hmem
    rw [hmarks]
    rcases List.mem_append.1 hmem with hmem | hmem
    · obtain ⟨m, hm, hlookup⟩ := h.exists_mark f p hmem
      have hm' := hadded.extends_alphabet _ _ hm
      refine ⟨m, hm', ?_⟩
      by_cases heq : m = mark
      · -- the mark is not that of another feature
        subst heq
        have hspelling := (Prod.mk.inj (Alphabet.number?_injective hm' hmark)).2
        simp [markSpelling_injective hspelling]
      · rw [List.lookup_cons, beq_eq_false_iff_ne.2 heq]
        exact hlookup
    · obtain ⟨rfl, rfl⟩ := Prod.mk.inj (List.mem_singleton.1 hmem)
      exact ⟨mark, hmark, by simp⟩
  · intro m f hlookup
    rw [hmarks, List.lookup_cons] at hlookup
    split at hlookup
    · rename_i heq
      obtain rfl : m = mark := by simpa using heq
      exact Option.some.inj hlookup ▸ hmark
    · exact hadded.extends_alphabet _ _ (h.of_mark m f hlookup)

/-- A draft represents all patterns that have been added to it. -/
lemma represents_foldl (patterns : List (Nat × Text)) {entries : List (Nat × Pattern)}
    (h : draft.Represents entries) :
    (patterns.foldl (fun draft (feature, text) => draft.addPattern feature (.ofText text))
      draft).Represents
        (entries ++ patterns.map fun (feature, text) => (feature, .ofText text)) := by
  induction patterns generalizing draft entries with
  | nil => simpa using h
  | cons entry patterns ih =>
      obtain ⟨feature, text⟩ := entry
      simpa using ih (represents_addPattern h feature (.ofText text))

/-- **What a draft accepts.**  Behind the symbol of a side come tokens that a pattern for the side
describes, and then the mark of its feature. -/
lemma Represents.acceptsVia_iff {entries : List (Nat × Pattern)} (h : draft.Represents entries)
    {side : Side} {tokens : List Token} :
    draft.graph.AcceptsVia 0 ([sideSymbol side] :: tokens.map (Token.offered draft.alphabet)) mark ↔
      ∃ feature pattern, (feature, pattern) ∈ entries ∧ IsSideOf pattern side ∧
        draft.alphabet.number? (.special, markSpelling feature) = some mark ∧
        Pattern.Fits [] pattern.atoms tokens := by
  rw [Graph.acceptsVia_cons]
  simp only [List.mem_singleton, exists_eq_left]
  constructor
  · rintro ⟨q, harc, haccepts⟩
    obtain ⟨feature, pattern, side', hmem, hside, hsymbol, m, hm, hchain⟩ := h.of_arc _ harc
    obtain rfl : side = side' := by
      cases side <;> cases side' <;>
        simp_all [sideSymbol, Alphabet.sourceSide, Alphabet.targetSide]
    obtain ⟨rfl, hfits⟩ := (hchain.acceptsVia_iff hm).1 haccepts
    exact ⟨feature, pattern, hmem, hside, hm, hfits⟩
  · rintro ⟨feature, pattern, hmem, hside, hm, hfits⟩
    obtain ⟨q, harc, m, hm', hchain⟩ := h.exists_arc feature pattern hmem side hside
    obtain rfl : m = mark := Option.some.inj (hm'.symm.trans hm)
    exact ⟨q, harc, (hchain.acceptsVia_iff hm).2 ⟨rfl, hfits⟩⟩

end Matcher.Draft

end LexicalSelection
