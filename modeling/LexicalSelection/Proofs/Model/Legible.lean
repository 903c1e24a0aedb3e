import LexicalSelection.Proofs.Model.Naming

/-!
# What can be written of models from rules

* `Model.Names`, `Model.Weighable` — the locations and the pairs that rules can name.
* `Model.Legible` — a model whose patterns and weights can all be written as rules.
* **`legible_ofRules`** — models from rule files can be written as rule files.
-/

namespace LexicalSelection.Model

variable {model : Model Binary64}

/-! ## Locations and pairs -/

/-- The location is one that a rule can name. -/
structure Names (model : Model Binary64) (x : NamedLocation) (a : Location) : Prop where
  sayable : Rule.Sayable x
  near : model.inWindow x.position = true
  located : model.locate? x = some a

/-- The pair is one that a rule can give a weight to. -/
inductive Weighable (model : Model Binary64) : Pair → Prop
  | unary {x : NamedLocation} {a : Location} (hx : model.Names x a) : Weighable model (.unary a)
  | two {x y : NamedLocation} {a b : Location} (hx : model.Names x a) (hy : model.Names y b) :
      Weighable model (.of a b)

/-- The model is the same, and maybe its window and its features are more. -/
structure Extends (model model' : Model Binary64) : Prop where
  lookbehind : model.lookbehind ≤ model'.lookbehind
  lookahead : model.lookahead ≤ model'.lookahead
  names : model.names <+: model'.names

/-- A name has the same number when more names come behind. -/
lemma featureId?_of_prefix {model' : Model Binary64} {name : Text} {id : Nat}
    (h : model.names <+: model'.names) (hid : model.featureId? name = some id) :
    model'.featureId? name = some id := by
  obtain ⟨more, hmore⟩ := h
  have hid : model.names.idxOf? name = some id := hid
  show model'.names.idxOf? name = some id
  rw [List.idxOf?] at hid ⊢
  rw [← hmore, List.findIdx?_append, hid, Option.some_or]

/-- A location keeps its name when a model is extended. -/
lemma Names.mono {model' : Model Binary64} {x : NamedLocation} {a : Location}
    (h : model.Names x a) (hextends : model.Extends model') : model'.Names x a where
  sayable := h.sayable
  near := by
    have hwindow := h.near
    have hbehind := hextends.lookbehind
    have hahead := hextends.lookahead
    simp only [inWindow, Bool.and_eq_true, decide_eq_true_eq] at hwindow ⊢
    omega
  located := by
    obtain ⟨id, hid, rfl⟩ := Option.map_eq_some_iff.1 h.located
    exact Option.map_eq_some_iff.2 ⟨id, featureId?_of_prefix hextends.names hid, rfl⟩

/-- A pair that can be weighed by a line stays so when a model is extended. -/
lemma Weighable.mono {model' : Model Binary64} {pair : Pair} (h : model.Weighable pair)
    (hextends : model.Extends model') : model'.Weighable pair := by
  cases h with
  | unary hx => exact .unary (hx.mono hextends)
  | two hx hy => exact .two (hx.mono hextends) (hy.mono hextends)

/-- A location that was resolved from a name has it. -/
lemma names_of_resolve {x : NamedLocation} {a : Location} (hx : Rule.Sayable x)
    (h : model.resolve x = .ok a) : model.Names x a := by
  rw [resolve] at h
  split at h
  · rename_i hwindow
    split at h
    · rename_i id hid
      split at h
      · cases h
      · cases h
        exact ⟨hx, hwindow, Option.map_eq_some_iff.2 ⟨id, hid, rfl⟩⟩
    · cases h
  · cases h

/-- A pair that was resolved from a line can be weighed by a line. -/
lemma weighable_of_resolvePair {first : NamedLocation} {second : Option NamedLocation} {pair : Pair}
    (hfirst : Rule.Sayable first) (hsecond : ∀ loc ∈ second, Rule.Sayable loc)
    (h : model.resolvePair first second = .ok pair) : model.Weighable pair := by
  obtain ⟨a, ha, h⟩ := Rule.bind_eq_ok.1 h
  cases second with
  | none =>
      cases h
      exact .unary (names_of_resolve hfirst ha)
  | some second =>
      obtain ⟨b, hb, h⟩ := Rule.bind_eq_ok.1 h
      cases h
      exact .two (names_of_resolve hfirst ha) (names_of_resolve (hsecond second rfl) hb)

/-! ## Models -/

/-- The model can be written as a rule file. -/
structure Legible (model : Model Binary64) : Prop where
  consistent : model.Consistent
  beam : model.beam < twoTo 64
  lookbehind : model.lookbehind < twoTo 64
  lookahead : model.lookahead < twoTo 64
  patterns : ∀ feature ∈ model.features, ∀ pattern ∈ feature.patterns,
    Rule.LegiblePattern feature.name pattern
  weights : ∀ pair weight, model.weights.find? pair.first pair.second = some weight →
    model.Weighable pair

lemma Legible.weighable {entry : Pair × Binary64} (h : model.Legible)
    (hentry : entry ∈ model.weights.entries) : model.Weighable entry.1 :=
  h.weights entry.1 entry.2 ((WeightTable.mem_entries_of_canonical h.consistent.ordered
    h.consistent.canonical entry.1 entry.2).1 hentry)

/-- The stored pairs of a legible model can be weighed in each extension with the same weights. -/
lemma Legible.mono {model' : Model Binary64} (h : model.Legible) (hextends : model.Extends model')
    (hweights : model'.weights = model.weights) (pair : Pair) (weight : Binary64)
    (hweight : model'.weights.find? pair.first pair.second = some weight) :
    model'.Weighable pair := by
  rw [hweights] at hweight
  exact (h.weights pair weight hweight).mono hextends

lemma legible_empty : ({} : Model Binary64).Legible where
  consistent := consistent_empty
  beam := by decide
  lookbehind := by decide
  lookahead := by decide
  patterns feature hfeature := by
    rw [List.mem_singleton.1 hfeature]
    exact fun _ hpattern => absurd hpattern List.not_mem_nil
  weights _ _ h := nomatch h

/-! ## Rules -/

/-- A setting has 64 bits, whether it is kept or made anew. -/
lemma setOnce_lt {old new : Nat} (hold : old < twoTo 64) (hnew : new < twoTo 64) :
    setOnce old new < twoTo 64 := by
  rw [setOnce]
  split
  · exact hnew
  · exact hold

/-- A setting never becomes smaller. -/
lemma le_setOnce (old new : Nat) : old ≤ setOnce old new := by
  rw [setOnce]
  split <;> omega

/-- Asking for a feature extends a model. -/
lemma extends_internFeature (name : Text) (model : Model Binary64) :
    model.Extends (model.internFeature name).2 := by
  rw [internFeature]
  split
  · exact ⟨le_refl _, le_refl _, List.prefix_refl _⟩
  · refine ⟨le_refl _, le_refl _, [name], ?_⟩
    rw [names, names, List.map_append]
    rfl

/-- Asking for a feature changes neither settings nor weights. -/
lemma settings_internFeature (name : Text) (model : Model Binary64) :
    (model.internFeature name).2.beam = model.beam ∧
      (model.internFeature name).2.lookbehind = model.lookbehind ∧
      (model.internFeature name).2.lookahead = model.lookahead ∧
      (model.internFeature name).2.weights = model.weights := by
  rw [internFeature]
  split <;> exact ⟨rfl, rfl, rfl, rfl⟩

/-- The feature with the name has the number that is given back. -/
lemma names_internFeature (name : Text) (model : Model Binary64) :
    (model.internFeature name).2.names[(model.internFeature name).1]? = some name := by
  rw [internFeature]
  split
  · rename_i id hid
    exact featureId?_eq_some hid
  · rw [names, List.map_append, List.getElem?_append_right (List.length_map _).le, List.length_map,
      Nat.sub_self]
    rfl

/-- Each feature keeps its patterns and may get more, if it has the number. -/
lemma mem_addPatterns {id : Nat} {patterns : List Text} {feature : Feature}
    (h : feature ∈ (model.addPatterns id patterns).features) : feature ∈ model.features ∨
      ∃ old ∈ model.features, model.names[id]? = some old.name ∧
        feature = { old with patterns := old.patterns ++ patterns } := by
  obtain ⟨i, hi⟩ := List.mem_iff_getElem?.1 h
  rw [addPatterns, List.getElem?_modify] at hi
  obtain ⟨old, hold, hfeature⟩ := Option.map_eq_some_iff.1 hi
  have hmem : old ∈ model.features := List.mem_of_getElem? hold
  split at hfeature
  · rename_i hid
    refine Or.inr ⟨old, hmem, ?_, hfeature.symm⟩
    rw [names, List.getElem?_map, hid, hold]
    rfl
  · exact Or.inl (hfeature ▸ hmem)

/-- All patterns stay legible when legible ones are added for a name. -/
lemma legible_pattern {name : Text} {patterns : List Text} (h : model.Legible)
    (hpatterns : ∀ pattern ∈ patterns, Rule.LegiblePattern name pattern) :
    ∀ feature ∈ ((model.internFeature name).2.addPatterns (model.internFeature name).1
      patterns).features,
      ∀ pattern ∈ feature.patterns, Rule.LegiblePattern feature.name pattern := by
  have hintern : ∀ feature ∈ (model.internFeature name).2.features, ∀ pattern ∈ feature.patterns,
      Rule.LegiblePattern feature.name pattern := by
    rw [internFeature]
    split
    · exact h.patterns
    · intro feature hfeature
      rcases List.mem_append.1 hfeature with hfeature | hfeature
      · exact h.patterns feature hfeature
      · rw [List.mem_singleton.1 hfeature]
        exact fun _ hpattern => absurd hpattern List.not_mem_nil
  intro feature hfeature pattern hpattern
  rcases mem_addPatterns hfeature with hfeature | ⟨old, hold, hname, rfl⟩
  · exact hintern feature hfeature pattern hpattern
  · have hname : name = old.name :=
      Option.some.inj ((names_internFeature name model).symm.trans hname)
    rcases List.mem_append.1 hpattern with hpattern | hpattern
    · exact hintern old hold pattern hpattern
    · exact hname ▸ hpatterns pattern hpattern

/-- All stored pairs can be weighed when one that can be weighed is added. -/
lemma weighable_setNew {pair pair' : Pair} {x weight : Binary64} (h : model.Legible)
    (hnew : model.Weighable pair)
    (hweight : (model.weights.setNew pair x).find? pair'.first pair'.second = some weight) :
    Weighable { model with weights := model.weights.setNew pair x } pair' := by
  have hextends : model.Extends { model with weights := model.weights.setNew pair x } :=
    ⟨le_refl _, le_refl _, List.prefix_refl _⟩
  refine Weighable.mono ?_ hextends
  rw [WeightTable.setNew, WeightTable.find?_alter_pair h.consistent.ordered] at hweight
  split at hweight
  · rename_i heq
    rw [heq]
    exact hnew
  · exact h.weights pair' weight hweight

/-- A model stays legible when a legible rule is applied. -/
lemma legible_apply {rule : Rule} {model' : Model Binary64} (hrule : rule.Legible)
    (h : model.Legible) (happly : model.apply rule = .ok model') : model'.Legible := by
  have hconsistent := consistent_apply h.consistent hrule happly
  cases rule with
  | beam size =>
      cases happly
      exact ⟨hconsistent, setOnce_lt h.beam hrule, h.lookbehind, h.lookahead, h.patterns,
        h.mono ⟨le_refl _, le_refl _, List.prefix_refl _⟩ rfl⟩
  | lookbehind size =>
      cases happly
      exact ⟨hconsistent, h.beam, setOnce_lt h.lookbehind hrule, h.lookahead, h.patterns,
        h.mono ⟨le_setOnce _ _, le_refl _, List.prefix_refl _⟩ rfl⟩
  | lookahead size =>
      cases happly
      exact ⟨hconsistent, h.beam, h.lookbehind, setOnce_lt h.lookahead hrule, h.patterns,
        h.mono ⟨le_refl _, le_setOnce _ _, List.prefix_refl _⟩ rfl⟩
  | pattern name patterns =>
      cases happly
      have hintern := extends_internFeature name model
      have hextends : model.Extends ((model.internFeature name).2.addPatterns
          (model.internFeature name).1 patterns) := by
        refine ⟨hintern.lookbehind, hintern.lookahead, ?_⟩
        rw [names_addPatterns]
        exact hintern.names
      obtain ⟨hbeam, hlookbehind, hlookahead, hweights⟩ := settings_internFeature name model
      exact ⟨hconsistent, hbeam.trans_lt h.beam, hlookbehind.trans_lt h.lookbehind,
        hlookahead.trans_lt h.lookahead, legible_pattern h hrule, h.mono hextends hweights⟩
  | weight first second x =>
      obtain ⟨pair, hpair, happly⟩ := Rule.bind_eq_ok.1 happly
      cases happly
      have hnew := weighable_of_resolvePair hrule.1 hrule.2 hpair
      exact ⟨hconsistent, h.beam, h.lookbehind, h.lookahead, h.patterns,
        fun _ _ => weighable_setNew h hnew⟩

/-- **Models from rule files can be written as rule files.** -/
lemma legible_ofRules (text : Text) : (ofRules text).Legible :=
  ofRules_induction legible_empty (fun _ _ _ hrule h happly => legible_apply hrule h happly)
    (fun _ h => ⟨h.consistent.mono rfl (le_refl _) (List.prefix_refl _) h.consistent.nodup, h.beam,
      h.lookbehind, h.lookahead, h.patterns, h.mono ⟨le_refl _, le_refl _, List.prefix_refl _⟩ rfl⟩)
    text

end LexicalSelection.Model
