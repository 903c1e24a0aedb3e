import LexicalSelection.Model.Rules
import LexicalSelection.Proofs.Model.WeightTable
import LexicalSelection.Proofs.Rule.Line

/-!
# What holds of models from rules

* `Location.Within` — a location of one of some features that is not before a window.
* `Model.Consistent` — the weights of a model are in order, and each belongs to features of the
  model at places in its window.
* **`consistent_ofRules`** — models from rule files are consistent: every line keeps them so.
-/

namespace LexicalSelection

/-- The position has 32 bits and is not before the window, and the feature is one of so many. -/
structure Location.Within (lookbehind features : Nat) (loc : Location) : Prop where
  lower : -0x80000000 ≤ loc.position
  upper : loc.position < 0x80000000
  inside : 0 ≤ loc.position + lookbehind
  feature_lt : loc.feature < features

/-- A location lies in each larger window, among more features. -/
lemma Location.Within.mono {lookbehind lookbehind' features features' : Nat} {loc : Location}
    (h : loc.Within lookbehind features) (hwindow : lookbehind ≤ lookbehind')
    (hfeatures : features ≤ features') : loc.Within lookbehind' features' := by
  obtain ⟨hlower, hupper, hinside, hfeature⟩ := h
  exact ⟨hlower, hupper, by omega, by omega⟩

namespace Model

/-! ## Consistent models -/

/-- The names of the features by number. -/
def names (model : Model Binary64) : List Text := model.features.map Feature.name

/-- The universal feature is the first, names are told apart, weights are in order, and each belongs
to two locations that the model has. -/
structure Consistent (model : Model Binary64) : Prop where
  universal : model.names[Location.universalFeature]? = some []
  nodup : model.names.Nodup
  ordered : model.weights.Ordered
  canonical : model.weights.Canonical
  holds : ∀ first row, (first, row) ∈ model.weights.rows →
    first.Within model.lookbehind model.features.length ∧ ∀ second weight, (second, weight) ∈ row →
      second.Within model.lookbehind model.features.length

variable {model : Model Binary64}

lemma length_names (model : Model Binary64) : model.names.length = model.features.length :=
  List.length_map _

/-- A model with the same weights, in which the window and the features are there, and maybe
more. -/
lemma Consistent.mono {model' : Model Binary64} (h : model.Consistent)
    (hweights : model'.weights = model.weights) (hwindow : model.lookbehind ≤ model'.lookbehind)
    (hnames : model.names <+: model'.names) (hnodup : model'.names.Nodup) :
    model'.Consistent where
  universal := by
    obtain ⟨more, hmore⟩ := hnames
    rw [← hmore, List.getElem?_append_left (List.getElem?_eq_some_iff.1 h.universal).1]
    exact h.universal
  nodup := hnodup
  ordered := hweights ▸ h.ordered
  canonical := hweights ▸ h.canonical
  holds first row hrow := by
    rw [hweights] at hrow
    have hle := hnames.length_le
    rw [length_names, length_names] at hle
    obtain ⟨hfirst, hsecond⟩ := h.holds first row hrow
    exact ⟨hfirst.mono hwindow hle,
      fun second weight hentry => (hsecond second weight hentry).mono hwindow hle⟩

lemma consistent_empty : ({} : Model Binary64).Consistent where
  universal := rfl
  nodup := List.nodup_singleton _
  ordered := WeightTable.ordered_empty
  canonical _ _ _ h := nomatch h
  holds _ _ h := nomatch h

/-! ## Features -/

/-- The number of a name is a place where it stands. -/
lemma featureId?_eq_some {name : Text} {id : Nat} (h : model.featureId? name = some id) :
    model.names[id]? = some name := by
  obtain ⟨hlt, hat, -⟩ := List.idxOf?_eq_some_iff.1 h
  exact List.getElem?_eq_some_iff.2 ⟨hlt, hat⟩

/-- A name without a number does not stand anywhere. -/
lemma featureId?_eq_none {name : Text} (h : model.featureId? name = none) : name ∉ model.names :=
  List.idxOf?_eq_none_iff.1 h

/-- Patterns change no name. -/
lemma names_addPatterns (id : Nat) (patterns : List Text) (model : Model Binary64) :
    (model.addPatterns id patterns).names = model.names := by
  refine List.ext_getElem? fun i => ?_
  rw [names, names, addPatterns, List.getElem?_map, List.getElem?_modify, List.getElem?_map]
  cases model.features[i]? with
  | none => rfl
  | some feature =>
      rw [Option.map_eq_map, Option.map_some, Option.map_some, Option.map_some]
      split <;> rfl

/-- A model stays consistent when it is asked for a feature. -/
lemma consistent_internFeature (name : Text) (h : model.Consistent) :
    (model.internFeature name).2.Consistent := by
  rw [internFeature]
  split
  · exact h
  · rename_i hnone
    have hnames : ({ model with features := model.features ++ [{ name }] } : Model Binary64).names
        = model.names ++ [name] := List.map_append
    refine h.mono rfl (le_refl _) ?_ ?_
    · exact ⟨[name], hnames.symm⟩
    · rw [hnames, List.nodup_append]
      refine ⟨h.nodup, List.nodup_singleton name, fun other hother new hnew => ?_⟩
      rintro rfl
      exact featureId?_eq_none hnone (List.mem_singleton.1 hnew ▸ hother)

/-- What a location of a model is: at a place in the window, and of a feature of the model. -/
lemma within_resolve {loc : NamedLocation} {found : Location} (hloc : Rule.Sayable loc)
    (h : model.resolve loc = .ok found) : found.Within model.lookbehind model.features.length := by
  rw [resolve] at h
  split at h
  · rename_i hwindow
    split at h
    · rename_i id hid
      split at h
      · cases h
      · cases h
        have hat := featureId?_eq_some hid
        have hinside : -(model.lookbehind : Int) ≤ loc.position := by
          rw [inWindow, Bool.and_eq_true, decide_eq_true_eq] at hwindow
          exact hwindow.1
        refine ⟨hloc.lower, hloc.upper, ?_, ?_⟩
        · show 0 ≤ loc.position + model.lookbehind
          omega
        · rw [← length_names]
          exact (List.getElem?_eq_some_iff.1 hat).1
    · cases h
  · cases h

/-- The universal location lies in every window. -/
lemma within_universal (h : model.Consistent) :
    Location.universal.Within model.lookbehind model.features.length where
  lower := by decide
  upper := by decide
  inside := by
    show 0 ≤ (0 : Int) + model.lookbehind
    omega
  feature_lt := by
    rw [← length_names]
    exact (List.getElem?_eq_some_iff.1 h.universal).1

/-- The locations of a pair that was resolved lie in the window. -/
lemma within_resolvePair {first : NamedLocation} {second : Option NamedLocation} {pair : Pair}
    (h : model.Consistent) (hfirst : Rule.Sayable first)
    (hsecond : ∀ loc ∈ second, Rule.Sayable loc)
    (hpair : model.resolvePair first second = .ok pair) :
    pair.first.Within model.lookbehind model.features.length ∧
      pair.second.Within model.lookbehind model.features.length := by
  have hof : ∀ {a b : Location}, a.Within model.lookbehind model.features.length →
      b.Within model.lookbehind model.features.length →
        (Pair.of a b).first.Within model.lookbehind model.features.length ∧
          (Pair.of a b).second.Within model.lookbehind model.features.length := by
    intro a b ha hb
    rw [Pair.of]
    split
    · exact ⟨hb, ha⟩
    · exact ⟨ha, hb⟩
  obtain ⟨a, ha, hpair⟩ := Rule.bind_eq_ok.1 hpair
  cases second with
  | none =>
      cases hpair
      exact hof (within_resolve hfirst ha) (within_universal h)
  | some second =>
      obtain ⟨b, hb, hpair⟩ := Rule.bind_eq_ok.1 hpair
      cases hpair
      exact hof (within_resolve hfirst ha) (within_resolve (hsecond second rfl) hb)

/-- A model stays consistent with a weight for two locations in the window. -/
lemma consistent_setNew {pair : Pair} {weight : Binary64} (h : model.Consistent)
    (hfirst : pair.first.Within model.lookbehind model.features.length)
    (hsecond : pair.second.Within model.lookbehind model.features.length) :
    Consistent { model with weights := model.weights.setNew pair weight } where
  universal := h.universal
  nodup := h.nodup
  ordered := WeightTable.ordered_alter h.ordered pair _
  canonical := WeightTable.canonical_alter h.ordered h.canonical pair _
  holds first row hrow := by
    rcases (Ascending.mem_alter h.ordered.rows).1 hrow with ⟨rfl, rfl⟩ | ⟨-, hrow⟩
    · refine ⟨hfirst, fun second weight hentry => ?_⟩
      rcases (Ascending.mem_alter (h.ordered.strictKeys_row pair.first)).1 hentry with
        ⟨rfl, -⟩ | ⟨-, hentry⟩
      · exact hsecond
      · obtain ⟨row, hrow, hentry⟩ := WeightTable.exists_row hentry
        exact (h.holds pair.first row hrow).2 second weight hentry
    · exact h.holds first row hrow

/-! ## Rules and lines -/

/-- A model stays consistent when a rule is applied. -/
lemma consistent_apply {rule : Rule} {model' : Model Binary64} (h : model.Consistent)
    (hrule : rule.Legible) (happly : model.apply rule = .ok model') :
    model'.Consistent := by
  cases rule with
  | beam size =>
      cases happly
      exact h.mono rfl (le_refl _) (List.prefix_refl _) h.nodup
  | lookbehind size =>
      cases happly
      refine h.mono rfl ?_ (List.prefix_refl _) h.nodup
      show model.lookbehind ≤ setOnce model.lookbehind size
      rw [setOnce]
      split <;> omega
  | lookahead size =>
      cases happly
      exact h.mono rfl (le_refl _) (List.prefix_refl _) h.nodup
  | pattern name patterns =>
      obtain rfl : (model.internFeature name).2.addPatterns (model.internFeature name).1 patterns
        = model' := Except.ok.inj happly
      have hintern := consistent_internFeature name h
      have hnames := names_addPatterns (model.internFeature name).1 patterns
        (model.internFeature name).2
      refine hintern.mono rfl (le_refl _) ⟨[], ?_⟩ ?_
      · rw [hnames, List.append_nil]
      · rw [hnames]
        exact hintern.nodup
  | weight first second weight =>
      obtain ⟨pair, hpair, happly⟩ := Rule.bind_eq_ok.1 happly
      cases happly
      obtain ⟨hfirst, hsecond⟩ := within_resolvePair h hrule.1 hrule.2 hpair
      exact consistent_setNew h hfirst hsecond

/-- What is kept by all rules of lines is kept by lines. -/
lemma foldl_applyLine_induction {property : Model Binary64 → Prop}
    (hstep : ∀ model rule model', rule.Legible → property model → model.apply rule = .ok model' →
      property model')
    {lines : List Text} (hlines : ∀ line ∈ lines, '\n' ∉ line) (h : property model) :
    property (lines.foldl applyLine model) := by
  have hline : ∀ model line, '\n' ∉ line → property model → property (model.applyLine line) := by
    intro model line hline h
    rw [applyLine]
    split
    · rename_i rule hrule
      split
      · rename_i model' happly
        exact hstep model rule model' (Rule.legible_ofLine hline hrule) h happly
      · exact h
    · exact h
    · exact h
  exact List.foldlRecOn lines applyLine h fun model h line hmem =>
    hline model line (hlines line hmem) h

/-- What holds of the empty model and is kept by all rules of lines holds of models from rule
files. -/
lemma ofRules_induction {property : Model Binary64 → Prop} (hempty : property {})
    (hstep : ∀ model rule model', rule.Legible → property model → model.apply rule = .ok model' →
      property model')
    (hmatcher : ∀ model, property model → property model.rebuildMatcher) (text : Text) :
    property (ofRules text) :=
  hmatcher _ (foldl_applyLine_induction hstep (fun _ => Text.newline_notMem_lines) hempty)

/-- **Models from rule files are consistent.** -/
lemma consistent_ofRules (text : Text) : (ofRules text).Consistent :=
  ofRules_induction consistent_empty (fun _ _ _ hrule h happly => consistent_apply h hrule happly)
    (fun _ h => h.mono rfl (le_refl _) (List.prefix_refl _) h.nodup) text

/-- A model that has been read is the one that the lines of some text give. -/
lemma exists_text_of_ofRuleBytes {bytes : Bytes} (h : ofRuleBytes bytes = .ok model) :
    ∃ text, ofRules text = model := by
  rw [ofRuleBytes] at h
  split at h
  · rename_i text _
    exact ⟨text, Except.ok.inj h⟩
  · cases h

end Model

end LexicalSelection
