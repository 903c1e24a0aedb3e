import LexicalSelection.Proofs.Automaton.Running
import LexicalSelection.Proofs.Pattern.Draft

/-!
# The features that a matcher finds

The automaton of a matcher is the smallest one with the words of its draft, so a run over a reading
ends before the mark of a feature just when one of its patterns matches the whole reading.

* `Reading.Numbered` — each tag of the reading comes with its number in an alphabet.
* `Reading.tokens_parse` — all alphabets find the same characters and tags in a text.
* `mem_featureStates` — where the mark of a feature leads to the end.
* **`mem_features_compile`** — the features of a reading are those with a pattern that matches it.
-/

namespace LexicalSelection

instance : Std.TransOrd FeatureState :=
  inferInstanceAs
    (Std.TransCmp (compareLex (compareOn FeatureState.state) (compareOn FeatureState.feature)))

instance : Std.LawfulEqOrd FeatureState where
  eq_of_compare {a b} h := by
    obtain ⟨h₁, h₂⟩ := Ordering.then_eq_eq.1 h
    obtain ⟨p, f⟩ := a
    obtain ⟨q, g⟩ := b
    obtain rfl : p = q := Std.LawfulEqOrd.eq_of_compare h₁
    obtain rfl : f = g := Std.LawfulEqOrd.eq_of_compare h₂
    rfl

/-! ## Readings with known tags -/

/-- A tag comes with its number. -/
def Piece.Numbered (tags : TagNumbers) : Piece → Prop
  | tag text id => id = tags text
  | _ => True

/-- Every tag of the reading comes with its number. -/
def Reading.Numbered (tags : TagNumbers) (reading : Reading) : Prop :=
  ∀ piece ∈ reading.pieces, piece.Numbered tags

lemma Reading.numbered_readPieces {tags : TagNumbers} {input rest : Input} {pieces : List Piece}
    (h : readPieces tags input = .ok pieces rest) : ∀ piece ∈ pieces, piece.Numbered tags := by
  fun_induction readPieces tags input generalizing pieces with
  | case1 => cases h; simp
  | case2 => cases h
  | case3 => cases h; simp
  | case4 => cases h; simp [Piece.Numbered]
  | case5 => cases h
  | case6 d input _ ih =>
      obtain ⟨pieces, hpieces, rfl⟩ := Input.map_eq_ok.1 h
      exact List.forall_mem_cons.2 ⟨trivial, ih hpieces⟩
  | case7 => cases h
  | case8 input _ _ tag rest' hc hle ih =>
      obtain ⟨pieces, hpieces, rfl⟩ := Input.map_eq_ok.1 h
      exact List.forall_mem_cons.2 ⟨rfl, ih hpieces⟩
  | case9 c input _ _ _ ih =>
      obtain ⟨pieces, hpieces, rfl⟩ := Input.map_eq_ok.1 h
      exact List.forall_mem_cons.2 ⟨trivial, ih hpieces⟩

lemma Reading.numbered_read {tags : TagNumbers} {input rest : Input} {reading : Reading}
    (h : read tags input = .ok reading rest) : reading.Numbered tags := by
  obtain ⟨pieces, hpieces, rfl⟩ := Input.map_eq_ok.1 h
  exact numbered_readPieces hpieces

lemma Reading.numbered_parse (tags : TagNumbers) (text : Text) :
    (parse tags text).Numbered tags := by
  unfold parse
  split
  · rename_i reading rest h
    exact numbered_read h
  · simp [Numbered]

/-! ## Readings by their tokens -/

namespace Reading

/-- The pieces that are found by two tables of tags, told apart by nothing but the numbers of
tags. -/
def SameTokens (found found' : Found (List Piece)) : Prop :=
  found.map (List.filterMap Piece.token?) = found'.map (List.filterMap Piece.token?)

lemma SameTokens.cons {found found' : Found (List Piece)} {piece piece' : Piece}
    (h : SameTokens found found') (hpiece : piece.token? = piece'.token?) :
    SameTokens (found.map (piece :: ·)) (found'.map (piece' :: ·)) := by
  cases found <;> cases found' <;>
    simp_all [SameTokens, Found.map, List.filterMap_cons]

/-- Characters and tags do not depend on the numbers that tags have. -/
lemma sameTokens_readPieces (tags tags' : TagNumbers) (input : Input) :
    SameTokens (readPieces tags input) (readPieces tags' input) := by
  fun_induction readPieces tags input with
  | case1 =>
      unfold readPieces
      rfl
  | case2 =>
      unfold readPieces
      rfl
  | case3 c rest hends =>
      unfold readPieces
      rw [if_pos hends]
      rfl
  | case4 hends =>
      unfold readPieces
      rw [if_neg hends, if_pos rfl]
      rfl
  | case5 n rest hends =>
      unfold readPieces
      rw [if_neg hends, if_pos rfl]
      rfl
  | case6 d rest hends ih =>
      conv => arg 2; unfold readPieces
      rw [if_neg hends, if_pos rfl]
      exact ih.cons rfl
  | case7 rest fault behind htag hends hescape =>
      unfold readPieces
      rw [if_neg hends, if_neg hescape, if_pos rfl]
      split
      · simp_all [SameTokens]
      · simp_all
  | case8 rest tag behind htag hle hends hescape ih =>
      conv => arg 2; unfold readPieces
      rw [if_neg hends, if_neg hescape, if_pos rfl]
      split
      · simp_all
      · rename_i tag' behind' htag'
        obtain ⟨rfl, rfl⟩ := EStateM.Result.ok.inj (htag.symm.trans htag')
        exact ih.cons rfl
  | case9 c rest hends hescape hopen ih =>
      conv => arg 2; unfold readPieces
      rw [if_neg hends, if_neg hescape, if_neg hopen]
      exact ih.cons rfl

/-- The characters and tags of a text do not depend on the alphabet that it is read with. -/
lemma tokens_parse (tags tags' : TagNumbers) (text : Text) :
    (parse tags text).tokens = (parse tags' text).tokens := by
  have hsame := sameTokens_readPieces tags tags' (Input.ofText text)
  rw [parse, parse, read, read]
  cases hfound : readPieces tags (Input.ofText text) <;>
    cases hfound' : readPieces tags' (Input.ofText text) <;>
      rw [hfound, hfound'] at hsame
  · exact (EStateM.Result.ok.inj hsame).1
  · cases hsame
  · cases hsame
  · rfl

end Reading

namespace Matcher

variable {matcher : Matcher} {reading : Reading} {side : Side} {patterns : List (Nat × Text)}
  {f state : Nat}

lemma map_offered_symbols (h : reading.Numbered matcher.alphabet.tagNumber?) :
    reading.symbols.map matcher.offered = reading.tokens.map (Token.offered matcher.alphabet) := by
  rw [Reading.symbols, Reading.tokens, List.map_filterMap, List.map_filterMap]
  refine List.filterMap_congr fun piece hpiece => ?_
  have hnumbered := h piece hpiece
  cases piece with
  | plain c => rfl
  | escaped c => rfl
  | danglingEscape => rfl
  | tag text id =>
      obtain rfl := hnumbered
      rfl

/-! ## Where features end -/

lemma mem_findFeatureStates {marks : List (Nat × Nat)} {automaton : Automaton} :
    ⟨state, f⟩ ∈ findFeatureStates marks automaton ↔ state < automaton.size ∧
      ∃ arc ∈ automaton.arcs state, automaton.isFinal arc.target = true ∧
        marks.lookup arc.symbol = some f := by
  simp only [findFeatureStates, Ascending.mem_ofList, List.mem_flatMap, List.mem_range,
    List.mem_filterMap, Option.ite_none_right_eq_some, Option.map_eq_some_iff,
    FeatureState.mk.injEq]
  constructor
  · rintro ⟨_, hlt, arc, harc, hfinal, _, hlookup, rfl, rfl⟩
    exact ⟨hlt, arc, harc, hfinal, hlookup⟩
  · rintro ⟨hlt, arc, harc, hfinal, hlookup⟩
    exact ⟨state, hlt, arc, harc, hfinal, f, hlookup, rfl, rfl⟩

/-- A matcher finds the features that end where a run over the reading does. -/
lemma mem_features_ofFeatureStates {alphabet : Alphabet} {automaton : Automaton}
    {featureStates : List FeatureState}
    (hstates : ∀ featureState ∈ featureStates, featureState.state < automaton.size) :
    f ∈ (ofFeatureStates alphabet automaton featureStates).features side reading ↔
      ∃ state ∈ (ofFeatureStates alphabet automaton featureStates).run side reading.symbols,
        ⟨state, f⟩ ∈ featureStates := by
  simp only [features, Ascending.mem_ofList, List.mem_flatMap, List.mem_filter, List.mem_map,
    decide_eq_true_eq]
  constructor
  · rintro ⟨_, ⟨hrun, -⟩, ⟨state, feature⟩, ⟨hmem, rfl⟩, rfl⟩
    exact ⟨state, hrun, hmem⟩
  · rintro ⟨state, hrun, hmem⟩
    refine ⟨state, ⟨hrun, ?_⟩, _, ⟨hmem, rfl⟩, rfl⟩
    exact Automaton.isFinal_withFinals.2 ⟨hstates _ hmem, List.mem_map.2 ⟨_, hmem, rfl⟩⟩

/-- A run over a reading ends where some word of its symbols leads. -/
lemma mem_run {graph : Graph} {automaton : Automaton} {alphabet : Alphabet}
    {featureStates : List FeatureState} (hordered : automaton.Ordered)
    (harcs : automaton.arcs = graph.arcs) (h : reading.Numbered alphabet.tagNumber?) :
    state ∈ (ofFeatureStates alphabet automaton featureStates).run side reading.symbols ↔
      ∃ word, List.Forall₂ (· ∈ ·) word
        ([Draft.sideSymbol side] :: reading.tokens.map (Token.offered alphabet)) ∧
          graph.Path 0 word state := by
  have hsymbols : reading.symbols.map
      (ofFeatureStates alphabet automaton featureStates).offered
        = reading.tokens.map (Token.offered alphabet) := map_offered_symbols h
  have hrun : (ofFeatureStates alphabet automaton featureStates).run side reading.symbols
      = ([Draft.sideSymbol side] :: reading.tokens.map (Token.offered alphabet)).foldl
        (fun active symbols => automaton.step symbols active) Automaton.start := by
    rw [← hsymbols, List.foldl_cons, List.foldl_map]
    rfl
  rw [hrun, Automaton.mem_foldl_step hordered harcs]
  simp [Automaton.start, Automaton.initial]

/-- **A matcher finds the features whose marks lead to the end** behind the side and the symbols of
the reading. -/
lemma mem_features_ofGraph {graph : Graph} {alphabet : Alphabet} {marks : List (Nat × Nat)}
    (hordered : (Automaton.ofGraph graph).Ordered) (h : reading.Numbered alphabet.tagNumber?) :
    f ∈ (ofFeatureStates alphabet (.ofGraph graph)
        (findFeatureStates marks (.ofGraph graph))).features side reading ↔
      ∃ mark, marks.lookup mark = some f ∧ graph.AcceptsVia 0
        ([Draft.sideSymbol side] :: reading.tokens.map (Token.offered alphabet)) mark := by
  rw [mem_features_ofFeatureStates fun _ hmem => (mem_findFeatureStates.1 hmem).1]
  simp only [mem_findFeatureStates, mem_run hordered (funext Automaton.arcs_ofGraph) h,
    Automaton.size_ofGraph, Automaton.arcs_ofGraph, Automaton.isFinal_ofGraph]
  constructor
  · rintro ⟨q, ⟨word, hword, path⟩, -, ⟨mark, target⟩, harc, hfinal, hlookup⟩
    exact ⟨mark, hlookup, word, hword, Graph.acceptsFrom_append.2
      ⟨q, path, Graph.acceptsFrom_cons.2 ⟨target, harc, Graph.acceptsFrom_nil.2 hfinal⟩⟩⟩
  · rintro ⟨mark, hlookup, word, hword, haccepts⟩
    obtain ⟨q, path, haccepts⟩ := Graph.acceptsFrom_append.1 haccepts
    obtain ⟨target, harc, hfinal⟩ := Graph.acceptsFrom_cons.1 haccepts
    exact ⟨q, ⟨word, hword, path⟩, Graph.lt_size_of_mem_arcs harc, _, harc,
      Graph.acceptsFrom_nil.1 hfinal, hlookup⟩

/-! ## Compiled matchers -/

/-- The draft that a matcher is compiled from. -/
def draftOf (patterns : List (Nat × Text)) : Draft :=
  patterns.foldl (fun draft (feature, text) => draft.addPattern feature (.ofText text)) {}

lemma compile_eq : compile patterns = ofFeatureStates (draftOf patterns).alphabet
    (.ofGraph (draftOf patterns).graph.minimize)
    (findFeatureStates (draftOf patterns).marks (.ofGraph (draftOf patterns).graph.minimize)) := rfl

lemma represents_draftOf (patterns : List (Nat × Text)) : (draftOf patterns).Represents
    (patterns.map fun (feature, text) => (feature, .ofText text)) :=
  Draft.represents_foldl patterns Draft.represents_nil

/-- The smallest graph takes a choice of words to the end just when the draft does. -/
lemma acceptsVia_minimize {graph : Graph} {offered : List (List Nat)} {mark : Nat}
    (hclosed : graph.Closed) (hinitials : graph.initials = [0]) :
    graph.minimize.AcceptsVia 0 offered mark ↔ graph.AcceptsVia 0 offered mark := by
  refine exists_congr fun word => and_congr_right fun _ => ?_
  have hminimal : graph.minimize.initials = [0] := rfl
  have haccepts : graph.minimize.Accepts (word ++ [mark]) ↔ graph.Accepts (word ++ [mark]) :=
    Graph.accepts_minimize hclosed
  simpa [Graph.Accepts, hminimal, hinitials] using haccepts

/-- **The features of a reading are those with a pattern that matches it.** -/
lemma mem_features_compile (h : reading.Numbered (draftOf patterns).alphabet.tagNumber?) :
    f ∈ (compile patterns).features side reading ↔
      ∃ text, (f, text) ∈ patterns ∧ Pattern.Matches text side reading.tokens := by
  have hrepresents := represents_draftOf patterns
  have hordered : (Automaton.ofGraph (draftOf patterns).graph.minimize).Ordered :=
    Automaton.ordered_ofGraph_determinize (Graph.closed_reverse
      (Graph.closed_determinize (Graph.closed_reverse hrepresents.closed)))
  rw [compile_eq, mem_features_ofGraph hordered h]
  simp only [acceptsVia_minimize hrepresents.closed hrepresents.initials,
    hrepresents.acceptsVia_iff, Pattern.matches_iff]
  constructor
  · rintro ⟨mark, hlookup, feature, pattern, hentry, hside, hmark, hfits⟩
    obtain ⟨⟨feature', text⟩, hmem, heq⟩ := List.mem_map.1 hentry
    obtain ⟨rfl, rfl⟩ := Prod.mk.inj heq
    have hspelling := Alphabet.number?_injective hmark (hrepresents.of_mark mark f hlookup)
    obtain rfl := Draft.markSpelling_injective (Prod.mk.inj hspelling).2
    exact ⟨text, hmem, hside, hfits⟩
  · rintro ⟨text, hmem, hside, hfits⟩
    have hentry := List.mem_map_of_mem (f := fun (feature, text) => (feature, Pattern.ofText text))
      hmem
    obtain ⟨mark, hmark, hlookup⟩ := hrepresents.exists_mark _ _ hentry
    exact ⟨mark, hlookup, f, _, hentry, hside, hmark, hfits⟩

end Matcher

end LexicalSelection
