import LexicalSelection.Proofs.Model.RuleText
import LexicalSelection.Proofs.Model.Scoring

/-!
# Which lines give a weight

Whether a rule for a weight is accepted depends on what the lines before it say.  They set the
window in which its positions must lie, and they must have declared the names of its features.

* `Model.rulesOf` — the rules that some lines carry.
* `Model.firstSize` — of some sizes the first one that is not zero.
* `window_lines`, `mem_names_lines` — the window that some lines set, and the names that they
  declare.
* `resolve_eq_ok_iff` — what a position and a name stand for.
* **`weightGiven?_eq_some_iff`** — the weight that a line gives, and to which locations.
* **`weightGiven?_isSome_iff`** — which lines give one, by what the lines before them say.
-/

namespace LexicalSelection

/-- The size of a rule for the units before the current one. -/
def Rule.lookbehind? : Rule → Option Nat
  | .lookbehind size => some size
  | _ => none

/-- The size of a rule for the units behind the current one. -/
def Rule.lookahead? : Rule → Option Nat
  | .lookahead size => some size
  | _ => none

namespace Model

variable {model : Model Binary64} {line name : Text} {before : List Text}

/-! ## What lines say -/

/-- The rule of a line, if it carries one that can be read. -/
def ruleOf? (line : Text) : Option Rule :=
  match Rule.ofLine line with
  | .ok rule? => rule?
  | .error _ => none

/-- The rules that some lines carry, in their order. -/
def rulesOf (lines : List Text) : List Rule := lines.flatMap fun line => (ruleOf? line).toList

/-- Of some sizes the first one that is not zero; 0 if there is none. -/
def firstSize (sizes : List Nat) : Nat := (sizes.find? (· ≠ 0)).getD 0

/-- How many units before the current one are looked at, as some lines have it. -/
def lookbehindOf (lines : List Text) : Nat := firstSize ((rulesOf lines).filterMap Rule.lookbehind?)

/-- How many units behind the current one are looked at, as some lines have it. -/
def lookaheadOf (lines : List Text) : Nat := firstSize ((rulesOf lines).filterMap Rule.lookahead?)

/-! ## What comes of it -/

lemma setOnce_zero (size : Nat) : setOnce size 0 = size := by
  rw [setOnce]
  split
  · rename_i hzero
    exact hzero.symm
  · rfl

lemma setOnce_assoc (a b c : Nat) : setOnce (setOnce a b) c = setOnce a (setOnce b c) := by
  by_cases h : a = 0 <;> simp [setOnce, h]

lemma firstSize_append (sizes more : List Nat) :
    firstSize (sizes ++ more) = setOnce (firstSize sizes) (firstSize more) := by
  rw [firstSize, firstSize, firstSize, List.find?_append]
  cases hfound : sizes.find? (· ≠ 0) with
  | none => rfl
  | some size =>
      have hne : size ≠ 0 := by simpa using List.find?_some hfound
      exact (if_neg hne).symm

/-- A line does what its rule does, if it carries one. -/
lemma applyLine_eq_follow (model : Model Binary64) (line : Text) :
    model.applyLine line = (ruleOf? line).toList.foldl follow model := by
  rw [applyLine, ruleOf?]
  cases Rule.ofLine line with
  | error error => rfl
  | ok rule? => cases rule? <;> rfl

/-- Lines do what their rules do. -/
lemma foldl_applyLine_eq_follow (model : Model Binary64) (lines : List Text) :
    lines.foldl applyLine model = (rulesOf lines).foldl follow model := by
  induction lines generalizing model with
  | nil => rfl
  | cons line lines ih =>
      have hrules : rulesOf (line :: lines) = (ruleOf? line).toList ++ rulesOf lines :=
        List.flatMap_cons
      rw [List.foldl_cons, ih, applyLine_eq_follow, hrules, List.foldl_append]

/-- Only rules for weights are refused, and those that are not change weights alone. -/
lemma exists_follow_weight (model : Model Binary64) (first : NamedLocation)
    (second : Option NamedLocation) (weight : Binary64) :
    ∃ weights, model.follow (.weight first second weight) = { model with weights } := by
  rw [follow, apply]
  cases model.resolvePair first second with
  | error error => exact ⟨model.weights, rfl⟩
  | ok pair => exact ⟨model.weights.setNew pair weight, rfl⟩

/-- A setting that rules change only when it is 0 has the first size that it is given. -/
lemma setting_foldl_follow {setting : Model Binary64 → Nat} {size? : Rule → Option Nat}
    (h : ∀ model rule, setting (follow model rule) = setOnce (setting model) ((size? rule).getD 0))
    (model : Model Binary64) (rules : List Rule) : setting (rules.foldl follow model)
      = setOnce (setting model) (firstSize (rules.filterMap size?)) := by
  have hone : ∀ size : Option Nat, firstSize size.toList = size.getD 0 := by
    rintro (_ | _ | size) <;> rfl
  induction rules generalizing model with
  | nil => exact (setOnce_zero _).symm
  | cons rule rules ih =>
      have hrules : (rule :: rules).filterMap size?
          = (size? rule).toList ++ rules.filterMap size? := by
        rw [List.filterMap_cons]
        cases size? rule <;> rfl
      rw [List.foldl_cons, ih, h, setOnce_assoc, hrules, firstSize_append, hone]

lemma window_follow (model : Model Binary64) (rule : Rule) :
    (model.follow rule).lookbehind = setOnce model.lookbehind (rule.lookbehind?.getD 0) ∧
      (model.follow rule).lookahead = setOnce model.lookahead (rule.lookahead?.getD 0) := by
  have hbehind := (setOnce_zero model.lookbehind).symm
  have hahead := (setOnce_zero model.lookahead).symm
  cases rule with
  | beam size => exact ⟨hbehind, hahead⟩
  | lookbehind size => exact ⟨rfl, hahead⟩
  | lookahead size => exact ⟨hbehind, rfl⟩
  | pattern name patterns =>
      obtain ⟨-, hlookbehind, hlookahead, -⟩ := settings_internFeature name model
      exact ⟨hlookbehind.trans hbehind, hlookahead.trans hahead⟩
  | weight first second weight =>
      obtain ⟨weights, hfollow⟩ := exists_follow_weight model first second weight
      rw [hfollow]
      exact ⟨hbehind, hahead⟩

/-- **The window that lines set** is that of the first sizes that are not zero. -/
lemma window_lines (lines : List Text) :
    (lines.foldl applyLine {}).lookbehind = lookbehindOf lines ∧
      (lines.foldl applyLine {}).lookahead = lookaheadOf lines := by
  rw [foldl_applyLine_eq_follow]
  exact ⟨setting_foldl_follow (fun model rule => (window_follow model rule).1) {} (rulesOf lines),
    setting_foldl_follow (fun model rule => (window_follow model rule).2) {} (rulesOf lines)⟩

lemma mem_names_internFeature (model : Model Binary64) (other : Text) :
    name ∈ (model.internFeature other).2.names ↔ name ∈ model.names ∨ name = other := by
  rw [internFeature]
  split
  · rename_i id hid
    have hmem : other ∈ model.names := List.mem_of_getElem? (featureId?_eq_some hid)
    constructor
    · exact Or.inl
    · rintro (h | rfl)
      · exact h
      · exact hmem
  · simp [names]

/-- A rule declares a name when it is one for patterns. -/
lemma mem_names_follow (model : Model Binary64) (rule : Rule) : name ∈ (model.follow rule).names ↔
    name ∈ model.names ∨ ∃ patterns, rule = .pattern name patterns := by
  cases rule with
  | beam size => simp [follow, apply, names]
  | lookbehind size => simp [follow, apply, names]
  | lookahead size => simp [follow, apply, names]
  | pattern other patterns =>
      have hnames : (model.follow (.pattern other patterns)).names
          = (model.internFeature other).2.names := names_addPatterns _ _ _
      rw [hnames, mem_names_internFeature]
      simp [eq_comm]
  | weight first second weight =>
      obtain ⟨weights, hfollow⟩ := exists_follow_weight model first second weight
      simp [hfollow, names]

/-- **Lines declare the names of their rules for patterns.** -/
lemma mem_names_lines (lines : List Text) : name ∈ (lines.foldl applyLine {}).names ↔
    name = [] ∨ ∃ patterns, Rule.pattern name patterns ∈ rulesOf lines := by
  have hrules : ∀ (rules : List Rule) (model : Model Binary64),
      name ∈ (rules.foldl follow model).names ↔
      name ∈ model.names ∨ ∃ patterns, Rule.pattern name patterns ∈ rules := by
    intro rules
    induction rules with
    | nil => simp
    | cons rule rules ih =>
        intro model
        rw [List.foldl_cons, ih, mem_names_follow, or_assoc, ← exists_or]
        simp only [List.mem_cons, eq_comm]
  rw [foldl_applyLine_eq_follow, hrules]
  exact or_congr_left List.mem_singleton

/-! ## Locations -/

/-- **What a position and a name stand for**: a location in the window, of the feature with the
name. -/
lemma resolve_eq_ok_iff {x : NamedLocation} {a : Location} (h : model.Consistent)
    (hx : Rule.Sayable x) : model.resolve x = .ok a ↔ model.Names x a := by
  refine ⟨names_of_resolve hx, fun hnames => ?_⟩
  obtain ⟨id, hid, rfl⟩ := Option.map_eq_some_iff.1 hnames.located
  rw [resolve, if_pos hnames.near, hid]
  exact if_neg (hnames.ne_universal h)

/-- The names of features in the window stand for locations. -/
lemma exists_names_iff {x : NamedLocation} (hx : Rule.Sayable x) : (∃ a, model.Names x a) ↔
    model.inWindow x.position = true ∧ x.name ∈ model.names := by
  rw [← exists_locate?_iff]
  constructor
  · rintro ⟨a, ha⟩
    exact ⟨ha.near, a, ha.located⟩
  · rintro ⟨hnear, a, hlocated⟩
    exact ⟨a, hx, hnear, hlocated⟩

/-! ## Weights -/

/-- A line gives a weight when it is a rule for one whose locations can be found. -/
lemma weightGiven?_eq_some {a b : Location} {weight : Binary64} :
    model.weightGiven? line = some (a, b, weight) ↔
      ∃ first second, Rule.ofLine line = .ok (some (.weight first second weight)) ∧
        model.resolve first = .ok a ∧ model.resolvePartner second = .ok b := by
  rw [weightGiven?]
  constructor
  · intro h
    split at h
    · rename_i first second found hrule
      split at h
      · rename_i hfirst hsecond
        cases h
        exact ⟨first, second, hrule, hfirst, hsecond⟩
      · cases h
    · cases h
  · rintro ⟨first, second, hrule, hfirst, hsecond⟩
    simp only [hrule, hfirst, hsecond]

lemma resolvePartner_eq_ok_iff {second : Option NamedLocation} {b : Location}
    (h : model.Consistent) (hsecond : ∀ loc ∈ second, Rule.Sayable loc) :
    model.resolvePartner second = .ok b ↔
      (∀ loc ∈ second, model.Names loc b) ∧ (second = none → b = .universal) := by
  cases second with
  | none => simp [resolvePartner, eq_comm]
  | some loc => simp [resolvePartner, resolve_eq_ok_iff h (hsecond loc rfl)]

/-- Lines of a text give a consistent model. -/
lemma consistent_lines {lines : List Text} (h : ∀ line ∈ lines, '\n' ∉ line) :
    Consistent (lines.foldl applyLine {}) :=
  foldl_applyLine_induction (fun _ _ _ hrule h happly => consistent_apply h hrule happly) h
    consistent_empty

/-- **The weight that a line gives, and to which locations.**  The line must be a rule for a weight,
and what it names must be locations of the model that the lines before it give. -/
lemma weightGiven?_eq_some_iff (hbefore : ∀ other ∈ before, '\n' ∉ other) (hline : '\n' ∉ line)
    {a b : Location} {weight : Binary64} :
    (before.foldl applyLine {}).weightGiven? line = some (a, b, weight) ↔
      ∃ first second, Rule.ofLine line = .ok (some (.weight first second weight)) ∧
        Names (before.foldl applyLine {}) first a ∧
        (∀ loc ∈ second, Names (before.foldl applyLine {}) loc b) ∧
        (second = none → b = .universal) := by
  rw [weightGiven?_eq_some]
  refine exists_congr fun first => exists_congr fun second => and_congr_right fun hrule => ?_
  obtain ⟨hfirst, hsecond⟩ := Rule.legible_ofLine hline hrule
  rw [resolve_eq_ok_iff (consistent_lines hbefore) hfirst,
    resolvePartner_eq_ok_iff (consistent_lines hbefore) hsecond]

/-- **Which lines give a weight.**  The positions must lie in the window that the lines before set,
and the names must be among those that they declare. -/
lemma weightGiven?_isSome_iff (hbefore : ∀ other ∈ before, '\n' ∉ other) (hline : '\n' ∉ line) :
    ((before.foldl applyLine {}).weightGiven? line).isSome ↔
      ∃ first second weight, Rule.ofLine line = .ok (some (.weight first second weight)) ∧
        ∀ loc ∈ first :: second.toList,
          (-(lookbehindOf before : Int) ≤ loc.position ∧ loc.position ≤ lookaheadOf before) ∧
          ∃ patterns, Rule.pattern loc.name patterns ∈ rulesOf before := by
  have hknown : ∀ loc, Rule.Sayable loc → ((∃ a, Names (before.foldl applyLine {}) loc a) ↔
      (-(lookbehindOf before : Int) ≤ loc.position ∧ loc.position ≤ lookaheadOf before) ∧
        ∃ patterns, Rule.pattern loc.name patterns ∈ rulesOf before) := by
    intro loc hloc
    obtain ⟨hlookbehind, hlookahead⟩ := window_lines before
    rw [exists_names_iff hloc, mem_names_lines, inWindow, hlookbehind, hlookahead]
    simp [hloc.ne_nil]
  rw [Option.isSome_iff_exists]
  constructor
  · rintro ⟨⟨a, b, weight⟩, h⟩
    obtain ⟨first, second, hrule, hfirst, hsecond, -⟩ :=
      (weightGiven?_eq_some_iff hbefore hline).1 h
    obtain ⟨hsayable, hsayable'⟩ := Rule.legible_ofLine hline hrule
    refine ⟨first, second, weight, hrule, List.forall_mem_cons.2 ⟨?_, fun loc hloc => ?_⟩⟩
    · exact (hknown first hsayable).1 ⟨a, hfirst⟩
    · have hloc := Option.mem_toList.1 hloc
      exact (hknown loc (hsayable' loc hloc)).1 ⟨b, hsecond loc hloc⟩
  · rintro ⟨first, second, weight, hrule, hall⟩
    obtain ⟨hsayable, hsayable'⟩ := Rule.legible_ofLine hline hrule
    obtain ⟨hfirst, hothers⟩ := List.forall_mem_cons.1 hall
    obtain ⟨a, ha⟩ := (hknown first hsayable).2 hfirst
    cases second with
    | none =>
        exact ⟨(a, .universal, weight), (weightGiven?_eq_some_iff hbefore hline).2
          ⟨first, none, hrule, ha, by simp, fun _ => rfl⟩⟩
    | some loc =>
        obtain ⟨b, hb⟩ := (hknown loc (hsayable' loc rfl)).2 (hothers loc (by simp))
        exact ⟨(a, b, weight), (weightGiven?_eq_some_iff hbefore hline).2
          ⟨first, some loc, hrule, ha, by simpa using hb, by simp⟩⟩

end Model

end LexicalSelection
