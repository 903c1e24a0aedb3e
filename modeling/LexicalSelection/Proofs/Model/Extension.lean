import LexicalSelection.Proofs.Model.Scoring
import LexicalSelection.Proofs.Model.Windowed
import LexicalSelection.Proofs.Text.BrokenLines

/-!
# Rule files with lines more or less

A line that is added to a rule file adds to the model and takes nothing away.  A line that says
nothing can be taken out.

* `Model.Grows` — what is in one model is in another, too.
* `grows_apply` — each rule lets the model grow; `grows_foldl_applyLine` — and so do all lines.
* `Grows.features_subset` — a model that has grown finds all features that it found before.
* `Model.accepted` — the lines of a rule file that are accepted at their places.
* **`ofRules_grows`** — what lines more change in a model, and what lines less do not.
-/

namespace LexicalSelection.Model

variable {model model' model'' : Model Binary64}

/-! ## Models that grow -/

/-- What is in the first model is in the second one, too: settings that have been made, features
under the same numbers with all their patterns, and weights. -/
structure Grows (model model' : Model Binary64) : Prop where
  beam : model.beam ≠ 0 → model'.beam = model.beam
  lookbehind : model.lookbehind ≠ 0 → model'.lookbehind = model.lookbehind
  lookahead : model.lookahead ≠ 0 → model'.lookahead = model.lookahead
  features : ∀ (id : Nat) (feature : Feature), model.features[id]? = some feature →
    ∃ more, model'.features[id]? = some { feature with patterns := feature.patterns ++ more }
  weights : ∀ a b weight, model.weights.find? a b = some weight →
    model'.weights.find? a b = some weight

lemma Grows.refl (model : Model Binary64) : model.Grows model where
  beam _ := rfl
  lookbehind _ := rfl
  lookahead _ := rfl
  features id feature h := ⟨[], by rw [h, List.append_nil]⟩
  weights _ _ _ h := h

/-- What is kept twice is kept. -/
lemma Grows.trans (h : model.Grows model') (h' : model'.Grows model'') : model.Grows model'' where
  beam hne := by
    have hbeam := h.beam hne
    rw [h'.beam (by rwa [hbeam]), hbeam]
  lookbehind hne := by
    have hlookbehind := h.lookbehind hne
    rw [h'.lookbehind (by rwa [hlookbehind]), hlookbehind]
  lookahead hne := by
    have hlookahead := h.lookahead hne
    rw [h'.lookahead (by rwa [hlookahead]), hlookahead]
  features id feature hfeature := by
    obtain ⟨more, hmore⟩ := h.features id feature hfeature
    obtain ⟨more', hmore'⟩ := h'.features id _ hmore
    exact ⟨more ++ more', by rw [hmore', List.append_assoc]⟩
  weights a b weight hweight := h'.weights a b weight (h.weights a b weight hweight)

/-! ## Rules -/

lemma setOnce_of_ne {old new : Nat} (h : old ≠ 0) : setOnce old new = old := if_neg h

/-- Asking for a feature keeps all that was there. -/
lemma grows_internFeature (name : Text) (model : Model Binary64) :
    model.Grows (model.internFeature name).2 := by
  rw [internFeature]
  split
  · exact Grows.refl model
  · refine ⟨fun _ => rfl, fun _ => rfl, fun _ => rfl, fun id feature hfeature => ⟨[], ?_⟩,
      fun _ _ _ h => h⟩
    rw [List.getElem?_append_left (List.getElem?_eq_some_iff.1 hfeature).1, hfeature,
      List.append_nil]

/-- Further patterns come behind those that were there. -/
lemma grows_addPatterns (id : Nat) (patterns : List Text) (model : Model Binary64) :
    model.Grows (model.addPatterns id patterns) := by
  refine ⟨fun _ => rfl, fun _ => rfl, fun _ => rfl, fun i feature hfeature => ?_, fun _ _ _ h => h⟩
  rw [addPatterns, List.getElem?_modify, hfeature]
  by_cases hid : id = i
  · exact ⟨patterns, by simp [hid]⟩
  · exact ⟨[], by simp [hid]⟩

/-- A new weight does not replace an old one. -/
lemma grows_setNew (hordered : model.weights.Ordered) (pair : Pair) (weight : Binary64) :
    model.Grows { model with weights := model.weights.setNew pair weight } := by
  refine ⟨fun _ => rfl, fun _ => rfl, fun _ => rfl, (Grows.refl model).features,
    fun a b old hold => ?_⟩
  rw [WeightTable.setNew, WeightTable.find?_alter hordered, hold]
  split <;> rfl

/-- **Each rule lets the model grow.** -/
lemma grows_apply {rule : Rule} (hordered : model.weights.Ordered)
    (happly : model.apply rule = .ok model') : model.Grows model' := by
  have hrefl := Grows.refl model
  cases rule with
  | beam size =>
      cases happly
      exact ⟨setOnce_of_ne, hrefl.lookbehind, hrefl.lookahead, hrefl.features, hrefl.weights⟩
  | lookbehind size =>
      cases happly
      exact ⟨hrefl.beam, setOnce_of_ne, hrefl.lookahead, hrefl.features, hrefl.weights⟩
  | lookahead size =>
      cases happly
      exact ⟨hrefl.beam, hrefl.lookbehind, setOnce_of_ne, hrefl.features, hrefl.weights⟩
  | pattern name patterns =>
      cases happly
      exact (grows_internFeature name model).trans (grows_addPatterns _ _ _)
  | weight first second weight =>
      obtain ⟨pair, -, happly⟩ := Rule.bind_eq_ok.1 happly
      cases happly
      exact grows_setNew hordered pair weight

/-! ## Lines -/

/-- A line adds to a model, or changes nothing. -/
lemma grows_applyLine (hordered : model.weights.Ordered) (line : Text) :
    model.Grows (model.applyLine line) := by
  rw [applyLine]
  split
  · split
    · rename_i happly
      exact grows_apply hordered happly
    · exact Grows.refl model
  · exact Grows.refl model
  · exact Grows.refl model

/-- **All lines let the model grow.** -/
lemma grows_foldl_applyLine (hordered : model.weights.Ordered) (lines : List Text) :
    model.Grows (lines.foldl applyLine model) := by
  induction lines generalizing model with
  | nil => exact Grows.refl model
  | cons line rest ih =>
      exact (grows_applyLine hordered line).trans (ih (ordered_applyLine hordered line))

/-! ## Features -/

/-- A feature keeps its name and its number. -/
lemma Grows.featureName?_eq {id : Nat} {name : Text} (h : model.Grows model')
    (hname : model.featureName? id = some name) : model'.featureName? id = some name := by
  obtain ⟨feature, hfeature, rfl⟩ := Option.map_eq_some_iff.1 hname
  obtain ⟨more, hmore⟩ := h.features id feature hfeature
  exact Option.map_eq_some_iff.2 ⟨_, hmore, rfl⟩

/-- The names of the larger model begin with those of the smaller one. -/
lemma Grows.names_prefix (h : model.Grows model') : model.names <+: model'.names := by
  refine List.prefix_iff_getElem?.2 fun id hid => ?_
  rw [← Model.featureName?_eq]
  exact h.featureName?_eq (by rw [Model.featureName?_eq, List.getElem?_eq_getElem hid])

/-- The larger model has all patterns of the smaller one, for the same features. -/
lemma Grows.patterns_subset (h : model.Grows model') : model.patterns ⊆ model'.patterns := by
  rintro ⟨id, pattern⟩ hpattern
  obtain ⟨feature, hfeature, hmem⟩ := mem_patterns.1 hpattern
  obtain ⟨more, hmore⟩ := h.features id feature hfeature
  exact mem_patterns.2 ⟨_, hmore, List.mem_append_left more hmem⟩

/-- **A model that has grown finds all features that it found before**, in whatever way its alphabet
numbers the tags of the reading. -/
lemma Grows.features_subset {side : Side} {reading reading' : Reading} (h : model.Grows model')
    (hmatcher : model.matcher = .compile model.patterns)
    (hmatcher' : model'.matcher = .compile model'.patterns)
    (hreading : reading.Numbered model.matcher.alphabet.tagNumber?)
    (hreading' : reading'.Numbered model'.matcher.alphabet.tagNumber?)
    (htokens : reading.tokens = reading'.tokens) :
    model.matcher.features side reading ⊆ model'.matcher.features side reading' := by
  intro f hf
  rw [hmatcher] at hf hreading
  rw [hmatcher'] at hreading' ⊢
  obtain ⟨pattern, hpattern, hmatches⟩ := (Matcher.mem_features_compile hreading).1 hf
  refine (Matcher.mem_features_compile hreading').2 ⟨pattern, h.patterns_subset hpattern, ?_⟩
  rwa [← htokens]

/-! ## Lines that say nothing -/

/-- Does the line carry a rule, and one that the model accepts? -/
def accepts (model : Model Binary64) (line : Text) : Bool :=
  match Rule.ofLine line with
  | .ok (some rule) => (model.apply rule).isOk
  | _ => false

/-- The lines of a rule file that are accepted at their places, with their line breaks. -/
def accepted : Model Binary64 → List Text.BrokenLine → List Text.BrokenLine
  | _, [] => []
  | model, row :: rest =>
    (if model.accepts row.1 then [row] else []) ++ accepted (model.applyLine row.1) rest

/-- The rule file without the lines that carry no rule or whose rule is refused. -/
def withoutRefused (text : Text) : Text := Text.joined (accepted {} (Text.brokenLines text))

/-- A line that is not accepted changes nothing. -/
lemma applyLine_of_not_accepts {line : Text} (h : model.accepts line = false) :
    model.applyLine line = model := by
  rw [accepts] at h
  rw [applyLine]
  generalize Rule.ofLine line = found at h ⊢
  cases found with
  | error error => rfl
  | ok rule? =>
      cases rule? with
      | none => rfl
      | some rule =>
          dsimp only at h ⊢
          generalize model.apply rule = applied at h ⊢
          cases applied with
          | error error => rfl
          | ok model' => cases h

/-- The accepted lines are some of the lines, in their order. -/
lemma accepted_sublist (model : Model Binary64) (broken : List Text.BrokenLine) :
    (model.accepted broken).Sublist broken := by
  induction broken generalizing model with
  | nil => exact List.Sublist.refl []
  | cons row rest ih =>
      rw [accepted]
      split
      · exact (ih _).cons_cons row
      · exact (ih _).cons row

/-- Lines that say nothing can be taken out. -/
lemma foldl_accepted (model : Model Binary64) (broken : List Text.BrokenLine) :
    ((model.accepted broken).map Prod.fst).foldl applyLine model
      = (broken.map Prod.fst).foldl applyLine model := by
  induction broken generalizing model with
  | nil => rfl
  | cons row rest ih =>
      rw [accepted]
      cases haccepts : model.accepts row.1 with
      | true =>
          rw [if_pos rfl, List.singleton_append, List.map_cons, List.foldl_cons, ih, List.map_cons,
            List.foldl_cons]
      | false =>
          rw [if_neg Bool.false_ne_true, List.nil_append, applyLine_of_not_accepts haccepts, ih,
            List.map_cons, List.foldl_cons, applyLine_of_not_accepts haccepts]

/-! ## Rule files -/

/-- Without the refused lines a rule file gives the same model. -/
lemma ofRules_withoutRefused (text : Text) : ofRules (withoutRefused text) = ofRules text := by
  have hbroken := (Text.wellBroken_brokenLines text).sublist (accepted_sublist {} _)
  rw [ofRules, withoutRefused, Text.lines_joined hbroken, foldl_accepted, Text.map_fst_brokenLines,
    ofRules]

/-- What is written behind a rule file adds to its model. -/
lemma grows_ofRules (text more : Text) :
    (ofRules (text ++ ['\n'])).Grows (ofRules (text ++ '\n' :: more)) := by
  have hordered : ((text ++ ['\n']).lines.foldl applyLine {}).weights.Ordered :=
    ordered_foldl_applyLine WeightTable.ordered_empty _
  have hgrows := grows_foldl_applyLine hordered more.lines
  rw [ofRules, ofRules, Text.lines_append text more, List.foldl_append]
  exact ⟨hgrows.beam, hgrows.lookbehind, hgrows.lookahead, hgrows.features, hgrows.weights⟩

/-- **Rule files with lines more or less.**  What is written behind a rule file that ends in a line
break only adds to the model: all features keep their numbers and names, all settings that are not 0
and all weights stay as they are, bit for bit, and in each reading of a side all features are found
that were found before, although each of the two models numbers the tags in its own way.

The locations that have weights lie inside the window as it is in the end; and all lines can be
taken out that carry no rule or are refused at their places, be it by the grammar, for a position
outside of the window or for the name of a feature. -/
theorem ofRules_grows :
    (∀ text more : Text,
      let earlier := ofRules (text ++ ['\n'])
      let later := ofRules (text ++ '\n' :: more)
      ofRuleBytes (text ++ ['\n']).utf8 = .ok earlier ∧
      ofRuleBytes (text ++ '\n' :: more).utf8 = .ok later ∧
      (∀ id name, earlier.featureName? id = some name → later.featureName? id = some name) ∧
      (∀ name id, earlier.featureId? name = some id → later.featureId? name = some id) ∧
      (earlier.beam ≠ 0 → later.beam = earlier.beam) ∧
      (earlier.lookbehind ≠ 0 → later.lookbehind = earlier.lookbehind) ∧
      (earlier.lookahead ≠ 0 → later.lookahead = earlier.lookahead) ∧
      (∀ a b weight, earlier.weights.find? a b = some weight →
        later.weights.find? a b = some weight) ∧
      (∀ side reading reading', reading.Numbered earlier.matcher.alphabet.tagNumber? →
        reading'.Numbered later.matcher.alphabet.tagNumber? → reading.tokens = reading'.tokens →
          earlier.matcher.features side reading ⊆ later.matcher.features side reading') ∧
      ∀ side reading,
        earlier.matcher.features side (Reading.parse earlier.matcher.alphabet.tagNumber? reading)
          ⊆ later.matcher.features side
            (Reading.parse later.matcher.alphabet.tagNumber? reading)) ∧
    ∀ text : Text,
      (∀ loc, (ofRules text).weights.Stores loc →
        -((ofRules text).lookbehind : Int) ≤ loc.position ∧
          loc.position ≤ (ofRules text).lookahead) ∧
      ofRuleBytes (withoutRefused text).utf8 = .ok (ofRules text) := by
  have hbytes : ∀ text : Text, ofRuleBytes text.utf8 = .ok (ofRules text) := by
    intro text
    rw [ofRuleBytes, Utf8.decode?_utf8]
  refine ⟨fun text more => ?_, fun text => ⟨windowed_ofRules text, ?_⟩⟩
  · intro earlier later
    have hgrows : earlier.Grows later := grows_ofRules text more
    refine ⟨hbytes _, hbytes _, fun _ _ => hgrows.featureName?_eq,
      fun _ _ => featureId?_of_prefix hgrows.names_prefix, hgrows.beam, hgrows.lookbehind,
      hgrows.lookahead, hgrows.weights, fun _ _ _ => hgrows.features_subset rfl rfl, ?_⟩
    intro side reading
    exact hgrows.features_subset rfl rfl (Reading.numbered_parse _ reading)
      (Reading.numbered_parse _ reading) (Reading.tokens_parse _ _ reading)
  · rw [hbytes, ofRules_withoutRefused]

/-- The weight for the unit ahead is refused at first, for the window does not reach so far, and is
taken out.  The same line counts later, and the second weight for one location never does. -/
theorem ofRules_grows_late_window :
    let text : Text := "P A tl/a\nW 0:A 2\nW 1:A 4".toList
    let more : Text := "R 1\nW 1:A 4\nW 0:A 3\n".toList
    let later := ofRules (text ++ '\n' :: more)
    later.featureId? ['A'] = some 1 ∧
    later.weights.find? ⟨0, 0⟩ ⟨0, 1⟩ = some ⟨0x4000000000000000⟩ ∧
    later.weights.find? ⟨0, 0⟩ ⟨1, 1⟩ = some ⟨0x4010000000000000⟩ ∧
    ofRuleBytes (Text.utf8 "P A tl/a\nW 0:A 2\nR 1\nW 1:A 4\nW 0:A 3\n".toList) = .ok later := by
  intro text more later
  obtain ⟨hadded, htaken⟩ := ofRules_grows
  obtain ⟨-, -, -, hids, -, -, -, hweights, -⟩ := hadded text more
  have hkept : withoutRefused (text ++ '\n' :: more)
      = "P A tl/a\nW 0:A 2\nR 1\nW 1:A 4\nW 0:A 3\n".toList := by decide +kernel
  have hbytes := (htaken (text ++ '\n' :: more)).2
  rw [hkept] at hbytes
  exact ⟨hids _ _ (by decide +kernel), hweights _ _ _ (by decide +kernel), by decide +kernel,
    hbytes⟩

end LexicalSelection.Model
