import LexicalSelection.Proofs.Model.Features
import LexicalSelection.Proofs.Model.Rules

/-!
# Features and weights by name

The numbers of features are the business of a model alone.  What two models have in common is said
by the names of their features.

* `Model.weightOf?` — the weight of two locations, each given by a position and a name.
* `Model.Finds` — a pattern of the feature with a name matches a text.
* **`pair?_eq_iff`** — whether two pairs are the same can be seen by their names alone.
* **`finds_iff`** — what is found can be said without numbers and without an alphabet.
-/

namespace LexicalSelection

/-- Two pairs of locations are the same when the locations are, in whatever order. -/
lemma Pair.of_eq_of_iff {a b c d : Location} :
    of a b = of c d ↔ a = c ∧ b = d ∨ a = d ∧ b = c := by
  constructor
  · intro h
    have hcases : ∀ a b : Location, ((of a b).first = a ∧ (of a b).second = b) ∨
        ((of a b).first = b ∧ (of a b).second = a) := by
      intro a b
      rw [of]
      split
      · exact Or.inr ⟨rfl, rfl⟩
      · exact Or.inl ⟨rfl, rfl⟩
    rcases hcases a b with ⟨ha, hb⟩ | ⟨ha, hb⟩ <;> rcases hcases c d with ⟨hc, hd⟩ | ⟨hc, hd⟩ <;>
      rw [h] at ha hb <;> simp_all
  · rintro (⟨rfl, rfl⟩ | ⟨rfl, rfl⟩)
    · rfl
    · exact of_comm a b

namespace Model

variable {model : Model Binary64}

/-! ## Weights by name -/

/-- The location of a feature with a name; the universal feature has the empty name. -/
def locate? (model : Model Binary64) (loc : NamedLocation) : Option Location :=
  (model.featureId? loc.name).map (⟨loc.position, ·⟩)

/-- The pair of two locations by name. -/
def pair? (model : Model Binary64) (x y : NamedLocation) : Option Pair := do
  return Pair.of (← model.locate? x) (← model.locate? y)

/-- The weight of two locations by name. -/
def weightOf? (model : Model Binary64) (x y : NamedLocation) : Option Binary64 := do
  let pair ← model.pair? x y
  model.weights.find? pair.first pair.second

lemma featureName?_eq (model : Model Binary64) (id : Nat) :
    model.featureName? id = model.names[id]? := by
  rw [featureName?, names, List.getElem?_map]

/-- A named location is at the given position and has the given name. -/
lemma locate?_eq_some {x : NamedLocation} {a : Location} (h : model.locate? x = some a) :
    a.position = x.position ∧ model.names[a.feature]? = some x.name := by
  obtain ⟨id, hid, rfl⟩ := Option.map_eq_some_iff.1 h
  exact ⟨rfl, featureId?_eq_some hid⟩

/-- Different names are resolved to different locations. -/
lemma locate?_inj {x y : NamedLocation} {a : Location} (hx : model.locate? x = some a)
    (hy : model.locate? y = some a) : x = y := by
  obtain ⟨hxp, hxn⟩ := locate?_eq_some hx
  obtain ⟨hyp, hyn⟩ := locate?_eq_some hy
  obtain ⟨position, name⟩ := x
  obtain ⟨position', name'⟩ := y
  obtain rfl : position = position' := hxp.symm.trans hyp
  obtain rfl : name = name' := Option.some.inj (hxn.symm.trans hyn)
  rfl

/-- A pair is named by the names of its two locations. -/
lemma pair?_eq_some {x y : NamedLocation} {pair : Pair} : model.pair? x y = some pair ↔
    ∃ a b, model.locate? x = some a ∧ model.locate? y = some b ∧ Pair.of a b = pair := by
  rw [pair?]
  cases model.locate? x <;> cases model.locate? y <;> simp

/-- A name is resolved just when a feature has it. -/
lemma exists_locate?_iff {x : NamedLocation} : (∃ a, model.locate? x = some a) ↔
    x.name ∈ model.names := by
  have hid : model.featureId? x.name = none ↔ x.name ∉ model.names := List.idxOf?_eq_none_iff
  rw [locate?]
  cases hfound : model.featureId? x.name with
  | none =>
      rw [hfound] at hid
      simpa using hid
  | some id =>
      rw [hfound] at hid
      simpa using hid

/-- A pair is resolved just when both of its names are. -/
lemma exists_pair?_iff {x y : NamedLocation} : (∃ pair, model.pair? x y = some pair) ↔
    x.name ∈ model.names ∧ y.name ∈ model.names := by
  rw [← exists_locate?_iff, ← exists_locate?_iff]
  constructor
  · rintro ⟨pair, hpair⟩
    obtain ⟨a, b, ha, hb, -⟩ := pair?_eq_some.1 hpair
    exact ⟨⟨a, ha⟩, b, hb⟩
  · rintro ⟨⟨a, ha⟩, b, hb⟩
    exact ⟨.of a b, pair?_eq_some.2 ⟨a, b, ha, hb, rfl⟩⟩

/-- It is no matter in which order the two locations are named. -/
lemma pair?_comm (model : Model Binary64) (x y : NamedLocation) :
    model.pair? x y = model.pair? y x := by
  rw [pair?, pair?]
  cases model.locate? x with
  | none => cases model.locate? y <;> rfl
  | some a =>
      cases model.locate? y with
      | none => rfl
      | some b => exact congrArg some (Pair.of_comm a b)

/-- Whether two pairs are the same can be seen by their names alone. -/
lemma pair?_eq_iff {x y u v : NamedLocation} {p q : Pair} (hp : model.pair? x y = some p)
    (hq : model.pair? u v = some q) : p = q ↔ x = u ∧ y = v ∨ x = v ∧ y = u := by
  obtain ⟨a, b, ha, hb, rfl⟩ := pair?_eq_some.1 hp
  obtain ⟨c, d, hc, hd, rfl⟩ := pair?_eq_some.1 hq
  have hsame : ∀ {x y a b}, model.locate? x = some a → model.locate? y = some b →
      (a = b ↔ x = y) := by
    intro x y a b ha hb
    constructor
    · rintro rfl
      exact locate?_inj ha hb
    · rintro rfl
      exact Option.some.inj (ha.symm.trans hb)
  rw [Pair.of_eq_of_iff, hsame ha hc, hsame hb hd, hsame ha hd, hsame hb hc]

/-! ## Features by name -/

/-- A pattern of the feature with this name matches the text. -/
def Finds (model : Model Binary64) (side : Side) (text name : Text) : Prop :=
  ∃ id ∈ model.matcher.features side (Reading.parse model.matcher.alphabet.tagNumber? text),
    model.featureName? id = some name

/-- The patterns of a model are those of its features, under their numbers. -/
lemma mem_patterns {id : Nat} {pattern : Text} : (id, pattern) ∈ model.patterns ↔
    ∃ feature, model.features[id]? = some feature ∧ pattern ∈ feature.patterns := by
  simp only [patterns, List.mem_flatMap, List.mem_map, Prod.exists, Prod.mk.injEq,
    List.mem_zipIdx_iff_getElem?]
  constructor
  · rintro ⟨feature, id', hfeature, pattern', hpattern, rfl, rfl⟩
    exact ⟨feature, hfeature, hpattern⟩
  · rintro ⟨feature, hfeature, hpattern⟩
    exact ⟨feature, id, hfeature, pattern, hpattern, rfl, rfl⟩

/-- A feature is found just when one of its patterns matches. -/
lemma finds_iff {side : Side} {text name : Text} (h : model.matcher = .compile model.patterns) :
    model.Finds side text name ↔ ∃ feature ∈ model.features, feature.name = name ∧
      ∃ pattern ∈ feature.patterns,
        Pattern.Matches pattern side (Reading.parse (fun _ => none) text).tokens := by
  have hmem : ∀ id, id ∈ model.matcher.features side
      (Reading.parse model.matcher.alphabet.tagNumber? text) ↔
        ∃ feature, model.features[id]? = some feature ∧ ∃ pattern ∈ feature.patterns,
          Pattern.Matches pattern side (Reading.parse (fun _ => none) text).tokens := by
    intro id
    rw [h]
    refine (Matcher.mem_features_compile (Reading.numbered_parse _ text)).trans ?_
    rw [Reading.tokens_parse _ (fun _ => none)]
    constructor
    · rintro ⟨pattern, hpattern, hmatches⟩
      obtain ⟨feature, hfeature, hmem⟩ := mem_patterns.1 hpattern
      exact ⟨feature, hfeature, pattern, hmem, hmatches⟩
    · rintro ⟨feature, hfeature, pattern, hmem, hmatches⟩
      exact ⟨pattern, mem_patterns.2 ⟨feature, hfeature, hmem⟩, hmatches⟩
  constructor
  · rintro ⟨id, hid, hname⟩
    obtain ⟨feature, hfeature, hpattern⟩ := (hmem id).1 hid
    rw [featureName?, hfeature] at hname
    exact ⟨feature, List.mem_of_getElem? hfeature, Option.some.inj hname, hpattern⟩
  · rintro ⟨feature, hfeature, hname, hpattern⟩
    obtain ⟨id, hid⟩ := List.mem_iff_getElem?.1 hfeature
    refine ⟨id, (hmem id).2 ⟨feature, hid, hpattern⟩, ?_⟩
    rw [featureName?, hid, ← hname]
    rfl

end Model

end LexicalSelection
