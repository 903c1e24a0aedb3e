import LexicalSelection.Proofs.Model.Legible

/-!
# Rule files written and read back

* `Model.rules` — the rules that are written for a model.
* `ofRules_rulesText` — the model that is read back follows just these rules.
* `foldl_follow_features`, `foldl_follow_weights` — what following them gives.
* **`ofRuleBytes_rulesText`** — what comes back of a model.
-/

namespace LexicalSelection.Model

variable {model : Model Binary64}

/-! ## The rules that are written -/

/-- A location by the name of its feature. -/
def nameOf (model : Model Binary64) (a : Location) : NamedLocation :=
  ⟨a.position, (model.featureName? a.feature).getD []⟩

/-- The rule for a weight. -/
def weightRule (model : Model Binary64) (entry : Pair × Binary64) : Rule :=
  match entry.1.unary? with
  | some a => .weight (model.nameOf a) none entry.2
  | none => .weight (model.nameOf entry.1.first) (some (model.nameOf entry.1.second)) entry.2

/-- The rules for the patterns of a feature. -/
def patternRules (feature : Feature) : List Rule :=
  feature.patterns.map fun pattern => .pattern feature.name [pattern]

/-- The rules for a model. -/
def rules (model : Model Binary64) : List Rule :=
  [.beam model.beam, .lookbehind model.lookbehind, .lookahead model.lookahead]
    ++ model.features.flatMap patternRules ++ model.weights.entries.map model.weightRule

/-- The location that a name was resolved to is named by it. -/
lemma nameOf_eq {x : NamedLocation} {a : Location} (h : model.locate? x = some a) :
    model.nameOf a = x := by
  obtain ⟨hposition, hname⟩ := locate?_eq_some h
  rw [nameOf, featureName?_eq, hname, hposition]
  rfl

/-- The feature without a name is the universal one. -/
lemma locate?_universal (h : model.names[Location.universalFeature]? = some []) :
    model.locate? ⟨0, []⟩ = some Location.universal := by
  have hid : model.names.idxOf? ([] : Text) = some Location.universalFeature := by
    obtain ⟨hlt, hat⟩ := List.getElem?_eq_some_iff.1 h
    exact List.idxOf?_eq_some_iff.2 ⟨hlt, hat, fun j hj => absurd hj (Nat.not_lt_zero j)⟩
  exact Option.map_eq_some_iff.2 ⟨_, hid, rfl⟩

/-- A location with a name is not the universal one. -/
lemma Names.ne_universal {x : NamedLocation} {a : Location} (h : model.Names x a)
    (hconsistent : model.Consistent) : a.feature ≠ Location.universalFeature := by
  intro ha
  obtain ⟨-, hname⟩ := locate?_eq_some h.located
  rw [ha, hconsistent.universal] at hname
  exact h.sayable.ne_nil (Option.some.inj hname).symm

/-- A location is written as its name is spelled. -/
lemma locationText_eq {x : NamedLocation} {a : Location} (h : model.Names x a) :
    model.locationText a = Rule.spell x := by
  obtain ⟨hposition, hname⟩ := locate?_eq_some h.located
  obtain ⟨c, name, hne⟩ := List.exists_cons_of_ne_nil h.sayable.ne_nil
  rw [locationText, featureName?_eq, hname, Rule.spell, hposition, hne]

/-- The pair of a location and the universal one stands for the location alone. -/
lemma unary?_unary {a : Location} (h : a.feature ≠ Location.universalFeature) :
    (Pair.unary a).unary? = some a := by
  have hne : a ≠ Location.universal := fun heq => h (congrArg Location.feature heq)
  rw [Pair.unary, Pair.of]
  split
  · rw [Pair.unary?, if_pos rfl]
  · rw [Pair.unary?, if_neg hne, if_pos rfl]

/-- A pair of two other locations does not stand for one location alone. -/
lemma unary?_of {a b : Location} (ha : a.feature ≠ Location.universalFeature)
    (hb : b.feature ≠ Location.universalFeature) : (Pair.of a b).unary? = none := by
  have ha : a ≠ Location.universal := fun heq => ha (congrArg Location.feature heq)
  have hb : b ≠ Location.universal := fun heq => hb (congrArg Location.feature heq)
  rw [Pair.of]
  split
  · rw [Pair.unary?, if_neg hb, if_neg ha]
  · rw [Pair.unary?, if_neg ha, if_neg hb]

/-- The two locations of a pair have the names that rules give. -/
lemma Weighable.cases {pair : Pair} (h : model.Weighable pair) (hconsistent : model.Consistent) :
    (∃ x a, model.Names x a ∧ pair = .unary a ∧ pair.unary? = some a) ∨
      ∃ x y, model.Names x pair.first ∧ model.Names y pair.second ∧ pair.unary? = none := by
  cases h with
  | unary hx => exact Or.inl ⟨_, _, hx, rfl, unary?_unary (hx.ne_universal hconsistent)⟩
  | @two x y a b hx hy =>
      have hnone := unary?_of (hx.ne_universal hconsistent) (hy.ne_universal hconsistent)
      refine Or.inr ?_
      rw [hnone]
      by_cases hgt : compare a b = .gt
      · rw [Pair.of, dif_pos hgt]
        exact ⟨y, x, hy, hx, rfl⟩
      · rw [Pair.of, dif_neg hgt]
        exact ⟨x, y, hx, hy, rfl⟩

/-- The partner of a location in a rule; it is the universal feature when there is none. -/
def partner (second : Option NamedLocation) : NamedLocation := second.getD ⟨0, []⟩

/-- The rule for a weight gives it to the names of its pair. -/
lemma weightRule_eq {entry : Pair × Binary64} (hmodel : model.Consistent)
    (h : model.Weighable entry.1) : ∃ x second, (∃ a, model.Names x a) ∧
      (∀ y ∈ second, ∃ b, model.Names y b) ∧ model.pair? x (partner second) = some entry.1 ∧
        model.weightRule entry = .weight x second entry.2 := by
  rcases h.cases hmodel with ⟨x, a, hx, hpair, hunary⟩ | ⟨x, y, hx, hy, hunary⟩
  · refine ⟨x, none, ⟨a, hx⟩, (fun _ hy => nomatch hy), ?_, ?_⟩
    · exact pair?_eq_some.2
        ⟨a, .universal, hx.located, locate?_universal hmodel.universal, hpair.symm⟩
    · rw [weightRule, hunary]
      simp only
      rw [nameOf_eq hx.located]
  · refine ⟨x, some y, ⟨_, hx⟩, fun z hz => ⟨_, Option.some.inj hz ▸ hy⟩, ?_, ?_⟩
    · exact pair?_eq_some.2 ⟨_, _, hx.located, hy.located, Pair.of_first_second entry.1⟩
    · rw [weightRule, hunary]
      simp only
      rw [nameOf_eq hx.located, nameOf_eq hy.located]

/-- Words with blanks between them are the first word and the others behind a blank each. -/
lemma intercalate_space (first : Text) (words : List Text) :
    [' '].intercalate (first :: words) = first ++ words.flatMap (' ' :: ·) := by
  induction words generalizing first with
  | nil => rw [List.intercalate_singleton, List.flatMap_nil, List.append_nil]
  | cons word words ih =>
      rw [List.intercalate_cons_cons, ih, List.flatMap_cons, List.append_assoc]
      rfl

/-- A line is written as the words of a rule, with a line break behind. -/
lemma ruleLine_cons (command : Char) (words : List Text) :
    ruleLine ([command] :: words) = Rule.line command words ++ ['\n'] := by
  rw [ruleLine, intercalate_space]
  rfl

/-- A weight is written as the text of its rule. -/
lemma weightLine_eq {entry : Pair × Binary64} (h : model.Legible)
    (hweighable : model.Weighable entry.1) :
    model.weightLine entry.1 entry.2 = (model.weightRule entry).text ++ ['\n'] := by
  rw [weightLine, weightRule]
  rcases hweighable.cases h.consistent with ⟨x, a, hx, -, hunary⟩ | ⟨x, y, hx, hy, hunary⟩
  · rw [hunary]
    simp only
    rw [ruleLine_cons, locationText_eq hx, nameOf_eq hx.located]
    rfl
  · rw [hunary]
    simp only
    rw [ruleLine_cons, locationText_eq hx, locationText_eq hy, nameOf_eq hx.located,
      nameOf_eq hy.located]
    rfl

/-- The universal feature is the first one and has no patterns. -/
lemma features_eq_cons (h : model.Legible) : ∃ rest, model.features = ⟨[], []⟩ :: rest := by
  have huniversal := h.consistent.universal
  rw [names] at huniversal
  cases hfeatures : model.features with
  | nil =>
      rw [hfeatures] at huniversal
      cases huniversal
  | cons feature rest =>
      rw [hfeatures] at huniversal
      have hname : feature.name = [] := Option.some.inj huniversal
      have hmem : feature ∈ model.features := hfeatures ▸ List.mem_cons_self
      have hpatterns : feature.patterns = [] :=
        List.eq_nil_iff_forall_not_mem.2 fun pattern hpattern =>
        (h.patterns feature hmem pattern hpattern).ne_nil hname
      exact ⟨rest, by rw [← hname, ← hpatterns]⟩

/-- The text of a legible model is that of its rules, line by line. -/
lemma rulesText_eq (h : model.Legible) :
    model.rulesText = model.rules.flatMap fun rule => rule.text ++ ['\n'] := by
  have hsettings : model.settingLines.flatten =
      [Rule.beam model.beam, .lookbehind model.lookbehind, .lookahead model.lookahead].flatMap
        fun rule => rule.text ++ ['\n'] := by
    rw [settingLines, ruleLine_cons, ruleLine_cons, ruleLine_cons]
    rfl
  have hpatterns : model.patternLines.flatten =
      (model.features.flatMap patternRules).flatMap fun rule => rule.text ++ ['\n'] := by
    obtain ⟨rest, hrest⟩ := features_eq_cons h
    have hfeature : ∀ feature : Feature, (feature.patterns.map fun pattern =>
        ruleLine [['P'], feature.name, pattern]).flatten
          = (patternRules feature).flatMap fun rule => rule.text ++ ['\n'] := by
      intro feature
      rw [patternRules, List.flatMap_map, List.flatMap_def]
      simp only [ruleLine_cons]
      rfl
    rw [patternLines, hrest, List.drop_one, List.tail_cons, List.flatMap_cons, patternRules,
      List.map_nil, List.nil_append, List.flatMap_assoc, List.flatMap_def, List.flatten_flatten,
      List.map_map, List.flatMap_def]
    exact congrArg List.flatten (List.map_congr_left fun feature _ => hfeature feature)
  have hweights : (model.weights.entries.map fun (pair, weight) =>
      model.weightLine pair weight).flatten
        = (model.weights.entries.map model.weightRule).flatMap fun rule => rule.text ++ ['\n'] := by
    rw [List.flatMap_map, List.flatMap_def]
    refine congrArg List.flatten (List.map_congr_left fun entry hentry => ?_)
    exact weightLine_eq h (h.weighable hentry)
  rw [rulesText, rules, List.flatten_append, List.flatten_append, hsettings, hpatterns, hweights,
    List.flatMap_append, List.flatMap_append]

/-- The rules that are written are read back. -/
lemma clear_of_mem_rules {rule : Rule} (h : model.Legible)
    (hreturn : ∀ feature ∈ model.features, ∀ pattern ∈ feature.patterns,
      pattern.getLast? ≠ some '\r')
    (hdecimal : ∀ entry ∈ model.weights.entries,
      Binary64.ofText? entry.2.decimalText = some entry.2) (hrule : rule ∈ model.rules) :
    rule.Clear := by
  rcases List.mem_append.1 hrule with hrule | hrule
  · rcases List.mem_append.1 hrule with hrule | hrule
    · simp only [List.mem_cons, List.not_mem_nil, or_false] at hrule
      rcases hrule with rfl | rfl | rfl
      · exact h.beam
      · exact h.lookbehind
      · exact h.lookahead
    · obtain ⟨feature, hfeature, hrule⟩ := List.mem_flatMap.1 hrule
      obtain ⟨pattern, hpattern, rfl⟩ := List.mem_map.1 hrule
      exact ⟨pattern, rfl, h.patterns feature hfeature pattern hpattern,
        hreturn feature hfeature pattern hpattern⟩
  · obtain ⟨entry, hentry, rfl⟩ := List.mem_map.1 hrule
    obtain ⟨x, second, ⟨a, hx⟩, hsecond, -, heq⟩ :=
      weightRule_eq h.consistent (h.weighable hentry)
    rw [heq]
    refine ⟨hx.sayable, fun y hy => ?_, hdecimal entry hentry⟩
    obtain ⟨b, hy⟩ := hsecond y hy
    exact hy.sayable

/-- The model after a rule, whether it is refused or not. -/
def follow (model : Model Binary64) (rule : Rule) : Model Binary64 :=
  match model.apply rule with
  | .ok model => model
  | .error _ => model

/-- A clear rule is followed when its text is read. -/
lemma applyLine_text {rule : Rule} (h : rule.Clear) (base : Model Binary64) :
    base.applyLine rule.text = base.follow rule := by
  rw [applyLine, Rule.ofLine_text h]
  rfl

/-- So are clear rules when their texts are read line by line. -/
lemma foldl_applyLine_text {rules : List Rule} (hclear : ∀ rule ∈ rules, rule.Clear)
    (base : Model Binary64) :
    (rules.map Rule.text).foldl applyLine base = rules.foldl follow base := by
  induction rules generalizing base with
  | nil => rfl
  | cons rule rules ih =>
      obtain ⟨hrule, hrules⟩ := List.forall_mem_cons.1 hclear
      rw [List.map_cons, List.foldl_cons, List.foldl_cons, applyLine_text hrule, ih hrules]

/-- **The model that is read back follows the rules that are written.** -/
lemma ofRules_rulesText (h : model.Legible)
    (hclear : ∀ rule ∈ model.rules, rule.Clear) :
    ofRules model.rulesText = (model.rules.foldl follow {}).rebuildMatcher := by
  have hone : ∀ line ∈ model.rules.map Rule.text, Text.OneLine line := by
    intro line hline
    obtain ⟨rule, hrule, rfl⟩ := List.mem_map.1 hline
    exact Rule.oneLine_text (hclear rule hrule)
  have hlines : Text.lines model.rulesText = model.rules.map Rule.text := by
    have hread := Text.lines_flatMap hone
    rw [List.flatMap_map] at hread
    rw [rulesText_eq h, hread]
  rw [ofRules, hlines, foldl_applyLine_text hclear]

/-! ## Following the rules for patterns -/

/-- The features that have patterns, and the universal one. -/
def kept (model : Model Binary64) : List Feature :=
  ⟨[], []⟩ :: model.features.filter fun feature => feature.patterns ≠ []

lemma modify_length {β : Type} (l : List β) (x : β) (f : β → β) :
    (l ++ [x]).modify l.length f = l ++ [f x] := by
  induction l with
  | nil => rfl
  | cons y l ih => exact congrArg (y :: ·) ih

/-- A feature that is asked for again right behind its own is found there. -/
lemma internFeature_last {base : Model Binary64} {features : List Feature} {name : Text}
    {patterns : List Text} (hname : name ∉ features.map Feature.name) :
    internFeature name { base with features := features ++ [⟨name, patterns⟩] }
      = (features.length, { base with features := features ++ [⟨name, patterns⟩] }) := by
  have hid : featureId? { base with features := features ++ [⟨name, patterns⟩] } name
      = some features.length := by
    rw [featureId?, List.map_append, List.idxOf?, List.findIdx?_append,
      ← List.idxOf?, List.idxOf?_eq_none_iff.2 hname, List.length_map]
    simp
  rw [internFeature, hid]

/-- A feature with a new name is put behind the others, without patterns. -/
lemma internFeature_new {base : Model Binary64} {name : Text}
    (hname : name ∉ base.features.map Feature.name) :
    internFeature name base
      = (base.features.length, { base with features := base.features ++ [⟨name, []⟩] }) := by
  have hid : base.featureId? name = none := List.idxOf?_eq_none_iff.2 hname
  rw [internFeature, hid]

/-- Patterns for the last feature are put behind those that it has. -/
lemma addPatterns_last {base : Model Binary64} {features : List Feature} {name : Text}
    {patterns more : List Text} :
    addPatterns features.length more { base with features := features ++ [⟨name, patterns⟩] }
      = { base with features := features ++ [⟨name, patterns ++ more⟩] } := by
  rw [addPatterns, modify_length]

/-- Patterns for the last feature are added to it. -/
lemma foldl_follow_last {base : Model Binary64} {features : List Feature} {name : Text}
    (hname : name ∉ features.map Feature.name) (patterns more : List Text) :
    (more.map fun pattern => Rule.pattern name [pattern]).foldl follow
        { base with features := features ++ [⟨name, patterns⟩] }
      = { base with features := features ++ [⟨name, patterns ++ more⟩] } := by
  induction more generalizing patterns with
  | nil =>
      rw [List.append_nil]
      rfl
  | cons pattern more ih =>
      have hstep : follow { base with features := features ++ [⟨name, patterns⟩] }
          (.pattern name [pattern])
            = { base with features := features ++ [⟨name, patterns ++ [pattern]⟩] } := by
        rw [follow, apply, internFeature_last hname]
        exact addPatterns_last
      rw [List.map_cons, List.foldl_cons, hstep, ih, List.append_assoc]
      rfl

/-- A feature that is new comes back when it has a pattern. -/
lemma foldl_follow_patternRules {base : Model Binary64} {feature : Feature}
    (hname : feature.name ∉ base.features.map Feature.name) :
    (patternRules feature).foldl follow base
      = { base with features := base.features ++ [feature].filter (·.patterns ≠ []) } := by
  obtain ⟨name, patterns⟩ := feature
  cases patterns with
  | nil =>
      show base = { base with features := base.features ++ [] }
      rw [List.append_nil]
  | cons pattern patterns =>
      have hstep : base.follow (.pattern name [pattern])
          = { base with features := base.features ++ [⟨name, [pattern]⟩] } := by
        rw [follow, apply, internFeature_new hname]
        exact addPatterns_last
      rw [patternRules, List.map_cons, List.foldl_cons, hstep,
        foldl_follow_last hname]
      rfl

/-- Following the rules for patterns brings back the features that have some, in their order. -/
lemma foldl_follow_features {base : Model Binary64} {features : List Feature}
    (hnodup : ((base.features ++ features).map Feature.name).Nodup) :
    (features.flatMap patternRules).foldl follow base
      = { base with features := base.features ++ features.filter (·.patterns ≠ []) } := by
  induction features generalizing base with
  | nil =>
      show base = { base with features := base.features ++ [] }
      rw [List.append_nil]
  | cons feature features ih =>
      have hname : feature.name ∉ base.features.map Feature.name := by
        rw [List.map_append, List.map_cons, List.nodup_middle, List.nodup_cons] at hnodup
        exact fun hmem => hnodup.1 (List.mem_append_left _ hmem)
      have hrest : ((base.features ++ [feature].filter (·.patterns ≠ []) ++ features).map
          Feature.name).Nodup := by
        refine hnodup.sublist (List.Sublist.map _ ?_)
        rw [List.append_cons base.features feature features]
        exact (List.filter_sublist.append_left _).append_right _
      rw [List.flatMap_cons, List.foldl_append, foldl_follow_patternRules hname, ih hrest,
        List.append_assoc, ← List.filter_append]
      rfl

/-! ## Following the rules for weights -/

/-- The model agrees with the one that the rules are for, in all that locations are found by. -/
structure Follows (model base : Model Binary64) : Prop where
  lookbehind : base.lookbehind = model.lookbehind
  lookahead : base.lookahead = model.lookahead
  universal : base.names[Location.universalFeature]? = some []
  ordered : base.weights.Ordered

/-- While rules are followed, a name is resolved once its feature has come back, and unknown
before. -/
lemma resolve_eq {base : Model Binary64} {x : NamedLocation} {a : Location}
    (h : model.Follows base) (hx : model.Names x a) : base.resolve x =
      match base.locate? x with
      | some b => .ok b
      | none => .error (.unknownFeature x.name) := by
  have hwindow : base.inWindow x.position = true := by
    rw [inWindow, h.lookbehind, h.lookahead]
    exact hx.near
  rw [resolve, if_pos hwindow, locate?]
  cases hid : base.featureId? x.name with
  | none => rfl
  | some id =>
      have hne : id ≠ Location.universalFeature := by
        rintro rfl
        have hname := h.universal.symm.trans (featureId?_eq_some hid)
        exact hx.sayable.ne_nil (Option.some.inj hname).symm
      simp only [hne, if_false, Option.map_some]

/-- A rule for a weight is refused when a feature is not there, and else the weight is stored. -/
lemma follow_weight {base : Model Binary64} {x : NamedLocation} {second : Option NamedLocation}
    {a : Location} {weight : Binary64} (h : model.Follows base) (hx : model.Names x a)
    (hsecond : ∀ y ∈ second, ∃ b, model.Names y b) : base.follow (.weight x second weight) =
      match base.pair? x (partner second) with
      | some pair => { base with weights := base.weights.setNew pair weight }
      | none => base := by
  rw [follow, apply, resolvePair, resolve_eq h hx, pair?]
  cases hfirst : base.locate? x with
  | none => rfl
  | some b =>
      cases second with
      | none =>
          rw [partner, Option.getD_none, locate?_universal h.universal]
          rfl
      | some y =>
          obtain ⟨c, hy⟩ := hsecond y rfl
          rw [partner, Option.getD_some]
          dsimp only
          rw [resolve_eq h hy]
          cases base.locate? y <;> rfl

/-- The list with its first entry told apart. -/
lemma lookup_cons_eq (entry : Pair × Binary64) (entries : List (Pair × Binary64)) (pair : Pair) :
    (entry :: entries).lookup pair =
      if pair = entry.1 then some entry.2 else entries.lookup pair := by
  obtain ⟨key, weight⟩ := entry
  by_cases hkey : pair = key
  · rw [if_pos hkey, hkey, List.lookup_cons_self]
  · rw [if_neg hkey, List.lookup_cons, beq_false_of_ne hkey]

/-- **Weights come back by name.**  When both locations are there, a pair has the weight that it is
given first. -/
lemma foldl_follow_weights {entries : List (Pair × Binary64)} {base : Model Binary64}
    (hmodel : model.Consistent) (hweighable : ∀ entry ∈ entries, model.Weighable entry.1)
    (h : model.Follows base) :
    ∃ table : WeightTable Binary64,
      (entries.map model.weightRule).foldl follow base = { base with weights := table } ∧
      ∀ x y p q, model.pair? x y = some p → base.pair? x y = some q →
        table.find? q.first q.second
          = (base.weights.find? q.first q.second).or (entries.lookup p) := by
  induction entries generalizing base with
  | nil => exact ⟨base.weights, rfl, fun _ _ _ _ _ _ => Option.or_none.symm⟩
  | cons entry entries ih =>
      obtain ⟨hentry, hentries⟩ := List.forall_mem_cons.1 hweighable
      obtain ⟨u, second, ⟨a, hu⟩, hsecond, huv, heq⟩ := weightRule_eq hmodel hentry
      rw [List.map_cons, List.foldl_cons, heq, follow_weight h hu hsecond]
      cases hpair : base.pair? u (partner second) with
      | none =>
          obtain ⟨table, htable, hfind⟩ := ih hentries h
          refine ⟨table, htable, fun x y p q hp hq => ?_⟩
          have hne : p ≠ entry.1 := by
            intro hp_eq
            rcases (pair?_eq_iff hp huv).1 hp_eq with ⟨hx, hy⟩ | ⟨hx, hy⟩
            · rw [hx, hy, hpair] at hq
              cases hq
            · rw [hx, hy, pair?_comm, hpair] at hq
              cases hq
          rw [hfind x y p q hp hq, lookup_cons_eq, if_neg hne]
      | some pair =>
          have hnext : model.Follows { base with weights := base.weights.setNew pair entry.2 } :=
            { h with ordered := WeightTable.ordered_alter h.ordered pair _ }
          obtain ⟨table, htable, hfind⟩ := ih hentries hnext
          refine ⟨table, htable, fun x y p q hp hq => ?_⟩
          have hsame : q = pair ↔ p = entry.1 := by
            rw [pair?_eq_iff hq hpair, pair?_eq_iff hp huv]
          rw [hfind x y p q hp hq, lookup_cons_eq]
          show ((base.weights.alter pair (·.getD entry.2)).find? q.first q.second).or _ = _
          rw [WeightTable.find?_alter_pair h.ordered]
          by_cases heq : q = pair
          · rw [if_pos heq, if_pos (hsame.1 heq)]
            cases base.weights.find? q.first q.second <;> rfl
          · rw [if_neg heq, if_neg (mt hsame.2 heq)]

/-! ## What comes back -/

/-- The feature with this name is there and has a pattern, or it is the universal one. -/
def HasPattern (model : Model Binary64) (name : Text) : Prop :=
  name = [] ∨ ∃ feature ∈ model.features, feature.name = name ∧ feature.patterns ≠ []

/-- The model that has the kept features and nothing else. -/
def bare (model : Model Binary64) : Model Binary64 :=
  { beam := model.beam, lookbehind := model.lookbehind, lookahead := model.lookahead
    features := model.kept }

/-- The names that come back are those with a pattern. -/
lemma mem_names_kept {name : Text} : name ∈ model.bare.names ↔ model.HasPattern name := by
  simp only [names, bare, kept, List.map_cons, List.mem_cons, List.mem_map, List.mem_filter,
    decide_eq_true_eq, HasPattern]
  constructor
  · rintro (rfl | ⟨feature, ⟨hfeature, hpatterns⟩, rfl⟩)
    · exact Or.inl rfl
    · exact Or.inr ⟨feature, hfeature, rfl, hpatterns⟩
  · rintro (rfl | ⟨feature, hfeature, rfl, hpatterns⟩)
    · exact Or.inl rfl
    · exact Or.inr ⟨feature, ⟨hfeature, hpatterns⟩, rfl⟩

/-- The rules give back the features with patterns, and the weights of those. -/
lemma foldl_follow_rules (h : model.Legible) : ∃ table : WeightTable Binary64,
    model.rules.foldl follow {} = { model.bare with weights := table } ∧
      ∀ x y p q, model.pair? x y = some p → model.bare.pair? x y = some q →
        table.find? q.first q.second = model.weights.find? p.first p.second := by
  have hsettings : [Rule.beam model.beam, .lookbehind model.lookbehind,
      .lookahead model.lookahead].foldl follow {} = { model.bare with features := [⟨[], []⟩] } :=
    rfl
  have hfeatures : (model.features.flatMap patternRules).foldl follow
      { model.bare with features := [⟨[], []⟩] } = model.bare := by
    obtain ⟨rest, hrest⟩ := features_eq_cons h
    have hnodup := h.consistent.nodup
    rw [names, hrest] at hnodup
    have huniversal : (⟨[], []⟩ :: rest).flatMap patternRules = rest.flatMap patternRules := rfl
    rw [hrest, huniversal]
    refine (foldl_follow_features hnodup).trans ?_
    rw [bare, kept, hrest]
    rfl
  have hfollows : model.Follows model.bare := ⟨rfl, rfl, rfl, WeightTable.ordered_empty⟩
  obtain ⟨table, htable, hfind⟩ :=
    foldl_follow_weights h.consistent (fun _ hentry => h.weighable hentry) hfollows
  refine ⟨table, ?_, fun x y p q hp hq => ?_⟩
  · rw [rules, List.foldl_append, List.foldl_append, hsettings, hfeatures, htable]
  · rw [hfind x y p q hp hq,
      WeightTable.lookup_entries h.consistent.ordered h.consistent.canonical]
    rfl

/-- The features that come back are found in the same readings as before. -/
lemma finds_bare {side : Side} {text name : Text} {again : Model Binary64}
    (hmodel : model.matcher = .compile model.patterns)
    (hagain : again.matcher = .compile again.patterns) (hfeatures : again.features = model.kept) :
    again.Finds side text name ↔ model.Finds side text name := by
  rw [finds_iff hmodel, finds_iff hagain, hfeatures, kept]
  constructor
  · rintro ⟨feature, hfeature, hname, pattern, hpattern, hmatches⟩
    rcases List.mem_cons.1 hfeature with rfl | hfeature
    · cases hpattern
    · exact ⟨feature, (List.mem_filter.1 hfeature).1, hname, pattern, hpattern, hmatches⟩
  · rintro ⟨feature, hfeature, hname, pattern, hpattern, hmatches⟩
    have hne : decide (feature.patterns ≠ []) = true := decide_eq_true (List.ne_nil_of_mem hpattern)
    exact ⟨feature, List.mem_cons_of_mem _ (List.mem_filter.2 ⟨hfeature, hne⟩), hname, pattern,
      hpattern, hmatches⟩

/-- A name with a pattern is one of the names of the model. -/
lemma names_of_hasPattern {name : Text} (h : model.Consistent) (hname : model.HasPattern name) :
    name ∈ model.names := by
  rcases hname with rfl | ⟨feature, hfeature, rfl, -⟩
  · exact List.mem_of_getElem? h.universal
  · exact List.mem_map_of_mem hfeature

/-- Weights are found by name just when both names have patterns, and then the same ones. -/
lemma weightOf?_bare {table : WeightTable Binary64} (h : model.Consistent)
    (hfind : ∀ x y p q, model.pair? x y = some p → model.bare.pair? x y = some q →
      table.find? q.first q.second = model.weights.find? p.first p.second)
    (x y : NamedLocation) (weight : Binary64) :
    weightOf? { model.bare with weights := table } x y = some weight ↔
      model.weightOf? x y = some weight ∧ model.HasPattern x.name ∧ model.HasPattern y.name := by
  have hpatterns : (∃ q, model.bare.pair? x y = some q) ↔
      model.HasPattern x.name ∧ model.HasPattern y.name := by
    rw [exists_pair?_iff, mem_names_kept, mem_names_kept]
  have hpair : model.HasPattern x.name ∧ model.HasPattern y.name →
      ∃ p, model.pair? x y = some p := fun hnames =>
    exists_pair?_iff.2 ⟨names_of_hasPattern h hnames.1, names_of_hasPattern h hnames.2⟩
  constructor
  · intro hweight
    obtain ⟨q, hq, hweight⟩ := Option.bind_eq_some_iff.1 hweight
    have hnames := hpatterns.1 ⟨q, hq⟩
    obtain ⟨p, hp⟩ := hpair hnames
    refine ⟨?_, hnames⟩
    rw [hfind x y p q hp hq] at hweight
    exact Option.bind_eq_some_iff.2 ⟨p, hp, hweight⟩
  · rintro ⟨hweight, hnames⟩
    obtain ⟨p, hp, hweight⟩ := Option.bind_eq_some_iff.1 hweight
    obtain ⟨q, hq⟩ := hpatterns.2 hnames
    rw [← hfind x y p q hp hq] at hweight
    exact Option.bind_eq_some_iff.2 ⟨q, hq, hweight⟩

/-- **What comes back of a model.**  A model from a rule file is written as a rule file, from which
another model is read.  When no pattern ends in `\r` and all weights are read back from their
digits, the settings are the same, patterns of the same features match each text, and just those
weights come back that belong to features with patterns. -/
theorem ofRuleBytes_rulesText (bytes : Bytes) (model : Model Binary64)
    (h : ofRuleBytes bytes = .ok model)
    (hreturn : ∀ feature ∈ model.features, ∀ pattern ∈ feature.patterns,
      pattern.getLast? ≠ some '\r')
    (hdecimal : ∀ entry ∈ model.weights.entries,
      Binary64.ofText? entry.2.decimalText = some entry.2) :
    ∃ again, ofRuleBytes model.rulesText.utf8 = .ok again ∧
      again.beam = model.beam ∧ again.lookbehind = model.lookbehind ∧
      again.lookahead = model.lookahead ∧
      (∀ x y weight, again.weightOf? x y = some weight ↔
        model.weightOf? x y = some weight ∧ model.HasPattern x.name ∧ model.HasPattern y.name) ∧
      ∀ side text name, again.Finds side text name ↔ model.Finds side text name := by
  have hmodel := matcher_of_ofRuleBytes h
  have hlegible : model.Legible := by
    rw [ofRuleBytes] at h
    split at h
    · obtain rfl := Except.ok.inj h
      exact legible_ofRules _
    · cases h
  obtain ⟨table, htable, hfind⟩ := foldl_follow_rules hlegible
  have hread : ofRuleBytes model.rulesText.utf8
      = .ok ({ model.bare with weights := table } : Model Binary64).rebuildMatcher := by
    rw [ofRuleBytes, Utf8.decode?_utf8]
    simp only
    rw [ofRules_rulesText hlegible fun rule hrule =>
      clear_of_mem_rules hlegible hreturn hdecimal hrule, htable]
  refine ⟨_, hread, rfl, rfl, rfl, fun x y weight => ?_, fun side text name => ?_⟩
  · exact weightOf?_bare hlegible.consistent hfind x y weight
  · exact finds_bare hmodel rfl rfl

/-- One feature with a pattern and one without: the weight of the first one comes back, and that of
the other one does not. -/
theorem ofRuleBytes_rulesText_two_features :
    let rules : Text := "P A tl/a\nP lonely\nW 0:A 2.5\nW 0:lonely 5\n".toList
    let universal : NamedLocation := ⟨0, []⟩
    ∃ model again, ofRuleBytes rules.utf8 = .ok model ∧
      ofRuleBytes model.rulesText.utf8 = .ok again ∧
      again.weightOf? ⟨0, "A".toList⟩ universal = some ⟨0x4004000000000000⟩ ∧
      model.weightOf? ⟨0, "lonely".toList⟩ universal = some ⟨0x4014000000000000⟩ ∧
      ∀ weight, again.weightOf? ⟨0, "lonely".toList⟩ universal ≠ some weight := by
  intro rules universal
  have hbytes : ofRuleBytes rules.utf8 = .ok (ofRules rules) := by
    rw [ofRuleBytes, Utf8.decode?_utf8]
  have hreturn : ∀ feature ∈ (ofRules rules).features, ∀ pattern ∈ feature.patterns,
      pattern.getLast? ≠ some '\r' := by decide +kernel
  have hdecimal : ∀ entry ∈ (ofRules rules).weights.entries,
      Binary64.ofText? entry.2.decimalText = some entry.2 := by decide +kernel
  have hA : (ofRules rules).HasPattern "A".toList :=
    Or.inr ⟨⟨"A".toList, ["tl/a".toList]⟩, by decide +kernel, rfl, by decide⟩
  have hlonely : ∀ feature ∈ (ofRules rules).features, feature.name = "lonely".toList →
      feature.patterns = [] := by decide +kernel
  obtain ⟨again, hagain, -, -, -, hweights, -⟩ :=
    ofRuleBytes_rulesText rules.utf8 (ofRules rules) hbytes hreturn hdecimal
  refine ⟨ofRules rules, again, hbytes, hagain, ?_, by decide +kernel, fun weight hweight => ?_⟩
  · exact (hweights ⟨0, "A".toList⟩ universal _).2 ⟨by decide +kernel, hA, Or.inl rfl⟩
  · rcases ((hweights ⟨0, "lonely".toList⟩ universal weight).1 hweight).2.1 with
      hname | ⟨feature, hfeature, hname, hpatterns⟩
    · cases hname
    · exact hpatterns (hlonely feature hfeature hname)

/-- The weight of a feature without patterns does not come back. -/
theorem weightOf?_rulesText_lost :
    let model := ofRules "P lonely\nW 0:lonely 5\n".toList
    model.weightOf? ⟨0, "lonely".toList⟩ ⟨0, []⟩ = some ⟨0x4014000000000000⟩ ∧
      (ofRules model.rulesText).weightOf? ⟨0, "lonely".toList⟩ ⟨0, []⟩ = none := by
  decide +kernel

end LexicalSelection.Model
