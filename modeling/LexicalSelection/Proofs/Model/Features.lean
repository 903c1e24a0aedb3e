import LexicalSelection.Model.Rules
import LexicalSelection.Proofs.LexicalUnit.Spelling
import LexicalSelection.Proofs.Pattern.Features
import LexicalSelection.Proofs.Text.Utf8

/-!
# The features of the readings of a unit

A model reads units whose readings have the features that its patterns give them, besides the
universal feature, and no others.

* `Model.Carries` — a reading with just those features.
* **`features_of_matching_patterns`** — the features that a matcher finds, and those of the readings
  that a model from a rule file reads.
-/

namespace LexicalSelection

/-! ## Features added one by one -/

namespace Reading

variable {reading : Reading} {features : List Nat}

lemma features_foldl_addFeature : (features.foldl (fun reading feature =>
    reading.addFeature feature) reading).features
      = features.foldl (fun set feature => Ascending.insert feature set) reading.features := by
  induction features generalizing reading with
  | nil => rfl
  | cons feature features ih => exact ih

lemma pieces_foldl_addFeature : (features.foldl (fun reading feature =>
    reading.addFeature feature) reading).pieces = reading.pieces := by
  induction features generalizing reading with
  | nil => rfl
  | cons feature features ih => exact ih

end Reading

namespace Ascending

variable {α : Type} [Ord α] {xs set : List α} {z : α}

lemma mem_foldl_insert [Std.LawfulEqOrd α] :
    z ∈ xs.foldl (fun set x => insert x set) set ↔ z ∈ xs ∨ z ∈ set := by
  induction xs generalizing set with
  | nil => simp
  | cons x xs ih =>
      simp only [List.foldl_cons, ih, mem_insert, List.mem_cons]
      tauto

lemma strict_foldl_insert [Std.TransOrd α] (h : Strict set) :
    Strict (xs.foldl (fun set x => insert x set) set) := by
  induction xs generalizing set with
  | nil => exact h
  | cons x xs ih => exact ih (strict_insert h)

/-- Ascending numbers ascend in the order of natural numbers. -/
lemma strict_nat {set : List Nat} : Strict set ↔ set.Pairwise (· < ·) := by
  simp [Strict, Nat.compare_eq_lt]

end Ascending

/-! ## Readings before they have features -/

/-- A reading of a unit: its source reading or one of its targets. -/
def LexicalUnit.HasReading (unit : LexicalUnit) (side : Side) (reading : Reading) : Prop :=
  match side with
  | .source => unit.source = some reading
  | .target => reading ∈ unit.targets

/-- The reading has no features, and each of its tags comes with its number. -/
structure Reading.Bare (tags : TagNumbers) (reading : Reading) : Prop where
  numbered : reading.Numbered tags
  features : reading.features = []

/-- A reading has no features when it has just been read. -/
lemma Reading.bare_read {tags : TagNumbers} {input rest : Input} {reading : Reading}
    (h : read tags input = .ok reading rest) : reading.Bare tags := by
  refine ⟨numbered_read h, ?_⟩
  obtain ⟨pieces, -, rfl⟩ := Input.map_eq_ok.1 h
  rfl

namespace LexicalUnit

variable {tags : TagNumbers} {input rest : Input} {unit : LexicalUnit}

/-- Nor have the targets. -/
lemma bare_readTargets {targets : List Reading} (h : readTargets tags input = .ok targets rest) :
    ∀ target ∈ targets, target.Bare tags := by
  fun_induction readTargets tags input generalizing targets with
  | case1 => cases h
  | case2 input target rest' hr hle ih =>
      obtain ⟨targets, htargets, rfl⟩ := Input.map_eq_ok.1 h
      exact List.forall_mem_cons.2 ⟨Reading.bare_read hr, ih htargets⟩
  | case3 => cases h; simp
  | case4 => cases h
  | case5 => cases h; simp

/-- Nor have the source and the targets of a unit. -/
lemma bare_readReadings {source : Reading} {targets : List Reading}
    (h : readReadings tags input = .ok (source, targets) rest) :
    source.Bare tags ∧ ∀ target ∈ targets, target.Bare tags := by
  simp only [readReadings, bind, EStateM.bind] at h
  split at h
  · rename_i source' rest₁ h₁
    split at h
    · rename_i targets' rest₂ h₂
      split at h
      · cases h
        exact ⟨Reading.bare_read h₁, bare_readTargets h₂⟩
      · cases h
    · cases h
  · cases h

/-- The readings of a unit have no features at first. -/
lemma bare_read (side : Side) (h : read tags input = .ok unit rest) {reading : Reading}
    (hreading : unit.HasReading side reading) : reading.Bare tags := by
  unfold read at h
  split at h
  · cases h
  · cases h; cases side <;> simp [HasReading] at hreading
  · cases h
  · rename_i blank c rest' hb
    split at h
    · obtain ⟨⟨source, targets⟩, hreadings, rfl⟩ := Input.map_eq_ok.1 h
      obtain ⟨hsource, htargets⟩ := bare_readReadings hreadings
      cases side with
      | source => exact Option.some.inj hreading ▸ hsource
      | target => exact htargets reading hreading
    · cases h; cases side <;> simp [HasReading] at hreading

end LexicalUnit

/-! ## Readings with their features -/

namespace Model

variable {α : Type} {model : Model α} {reading : Reading} {side : Side}

/-- The reading has the universal feature and those with a pattern that matches it, each once and in
ascending order. -/
def Carries (model : Model α) (side : Side) (reading : Reading) : Prop :=
  reading.features.Pairwise (· < ·) ∧ ∀ f, f ∈ reading.features ↔ f = Location.universalFeature ∨
    ∃ pattern, (f, pattern) ∈ model.patterns ∧ Pattern.Matches pattern side reading.tokens

/-- Finding its features leaves the tokens of a reading. -/
lemma tokens_annotate : (model.annotate side reading).tokens = reading.tokens := by
  rw [Reading.tokens, annotate, Matcher.annotate, Reading.pieces_foldl_addFeature]
  rfl

/-- A bare reading carries its features once they have been found. -/
lemma carries_annotate (hmatcher : model.matcher = .compile model.patterns)
    (h : reading.Bare model.matcher.alphabet.tagNumber?) :
    model.Carries side (model.annotate side reading) := by
  have hfeatures : (model.annotate side reading).features
      = (model.matcher.features side (reading.addFeature Location.universalFeature)).foldl
        (fun set feature => Ascending.insert feature set) [Location.universalFeature] := by
    rw [annotate, Matcher.annotate, Reading.features_foldl_addFeature, Reading.addFeature,
      h.features]
    rfl
  refine ⟨?_, fun f => ?_⟩
  · rw [hfeatures, ← Ascending.strict_nat]
    exact Ascending.strict_foldl_insert (List.pairwise_singleton _ _)
  · rw [hfeatures, Ascending.mem_foldl_insert, List.mem_singleton, or_comm, tokens_annotate,
      hmatcher, Matcher.mem_features_compile]
    · rfl
    · rw [hmatcher] at h
      exact h.numbered

/-- The readings of a unit that a model reads carry their features. -/
lemma carries_of_readUnit {input rest : Input} {unit : LexicalUnit}
    (hmatcher : model.matcher = .compile model.patterns)
    (h : model.readUnit input = .ok unit rest) (hreading : unit.HasReading side reading) :
    model.Carries side reading := by
  obtain ⟨bare, hbare, rfl⟩ := Input.map_eq_ok.1 h
  cases side with
  | source =>
      obtain ⟨source, hsource, rfl⟩ := Option.map_eq_some_iff.1 hreading
      exact carries_annotate hmatcher (LexicalUnit.bare_read .source hbare hsource)
  | target =>
      obtain ⟨target, htarget, rfl⟩ := List.mem_map.1 hreading
      exact carries_annotate hmatcher (LexicalUnit.bare_read .target hbare htarget)

/-- The matcher of a model from a rule file is the one for its patterns. -/
lemma matcher_of_ofRuleBytes {bytes : Bytes} {model : Model Binary64}
    (h : ofRuleBytes bytes = .ok model) : model.matcher = .compile model.patterns := by
  unfold ofRuleBytes at h
  split at h
  · cases h; rfl
  · cases h

end Model

/-- **Features are those of matching patterns.**  The matcher for any list of features and patterns
finds, in a reading of a side, each feature with a pattern that matches the whole reading, and no
other one.  So the readings of every unit that a model from a rule file reads have these features
and the universal one. -/
theorem features_of_matching_patterns :
    (∀ (patterns : List (Nat × Text)) (text : Text) (side : Side),
      let matcher := Matcher.compile patterns
      let reading := Reading.parse matcher.alphabet.tagNumber? text
      (matcher.features side reading).Pairwise (· < ·) ∧
        ∀ f, f ∈ matcher.features side reading ↔
          ∃ pattern, (f, pattern) ∈ patterns ∧ Pattern.Matches pattern side reading.tokens) ∧
    (∀ (bytes : Bytes) (model : Model Binary64) (input rest : Input) (unit : LexicalUnit),
      Model.ofRuleBytes bytes = .ok model → model.readUnit input = .ok unit rest →
        ∀ side reading, unit.HasReading side reading → model.Carries side reading) := by
  refine ⟨fun patterns text side => ⟨?_, fun f => ?_⟩, ?_⟩
  · exact Ascending.strict_nat.1 (Ascending.strict_ofList _)
  · exact Matcher.mem_features_compile (Reading.numbered_parse _ text)
  · intro bytes model input rest unit hbytes hunit side reading hreading
    exact Model.carries_of_readUnit (Model.matcher_of_ofRuleBytes hbytes) hunit hreading

/-- A rule file with one pattern, and a unit with a target that it matches: the target carries the
feature of the pattern, and the source reading does not. -/
theorem features_of_matching_patterns_one_rule :
    let rules : Text := "P animate tl/*<n>\n".toList
    let source : Reading := ⟨[.plain 'x', .tag "<n>".toList (some 5)], [0]⟩
    let target : Reading := ⟨[.plain 'y', .tag "<n>".toList (some 5)], [0, 1]⟩
    ∃ model, Model.ofRuleBytes rules.utf8 = .ok model ∧
      model.readUnit (.ofText "^x<n>/y<n>$".toList) = .ok ⟨[], some source, [target]⟩ [] ∧
      model.Carries .source source ∧ model.Carries .target target := by
  intro rules source target
  have hbytes : Model.ofRuleBytes rules.utf8 = .ok (.ofRules rules) := by
    rw [Model.ofRuleBytes, Utf8.decode?_utf8]
  have hunit : (Model.ofRules rules).readUnit (.ofText "^x<n>/y<n>$".toList)
      = .ok ⟨[], some source, [target]⟩ [] := by decide +kernel
  have hcarries := features_of_matching_patterns.2 _ _ _ _ _ hbytes hunit
  exact ⟨_, hbytes, hunit, hcarries .source source rfl,
    hcarries .target target (by simp [LexicalUnit.HasReading])⟩

end LexicalSelection
