import LexicalSelection.Model.Basic
import LexicalSelection.Model.Error
import LexicalSelection.Rule.Line
import LexicalSelection.Text.Lines
import LexicalSelection.Text.Utf8

/-!
# Models as rule files

A rule file gives a model line by line.  A setting counts the first time it is not zero, a weight
the first time it is given, and a line that is refused changes nothing.

* `Model.apply` — a model with one rule more.
* `Model.ofRules`, `Model.ofRuleBytes` — the model that the lines of a rule file give.
* `Model.rulesText` — a rule file for a model.
-/

namespace LexicalSelection.Model

/-! ## Reading -/

/-- A setting with a new value, unless it has been set. -/
def setOnce (old new : Nat) : Nat := if old = 0 then new else old

/-- The number of the feature with a name, and the model with the feature in it. -/
def internFeature {α : Type} (name : Text) (model : Model α) : Nat × Model α :=
  match model.featureId? name with
  | some id => (id, model)
  | none => (model.features.length, { model with features := model.features ++ [{ name }] })

/-- The model with more patterns for a feature. -/
def addPatterns {α : Type} (id : Nat) (patterns : List Text) (model : Model α) : Model α :=
  { model with
    features := model.features.modify id fun feature =>
      { feature with patterns := feature.patterns ++ patterns } }

/-- Is the position inside the window, as far as it has been set? -/
def inWindow {α : Type} (model : Model α) (position : Int) : Bool :=
  -(model.lookbehind : Int) ≤ position && position ≤ model.lookahead

/-- The location that a rule names: its position must be inside the window and its name must be that
of a feature other than the universal one. -/
def resolve {α : Type} (model : Model α) (loc : NamedLocation) : Except RuleError Location :=
  if model.inWindow loc.position then
    match model.featureId? loc.name with
    | some id =>
      if id = Location.universalFeature then .error (.unknownFeature loc.name)
      else .ok ⟨loc.position, id⟩
    | none => .error (.unknownFeature loc.name)
  else .error (.outsideWindow loc.position model.lookbehind model.lookahead)

/-- The pair that a weight is for. -/
def resolvePair {α : Type} (model : Model α) (first : NamedLocation)
    (second : Option NamedLocation) : Except RuleError Pair := do
  let a ← model.resolve first
  match second with
  | none => return Pair.unary a
  | some second => return Pair.of a (← model.resolve second)

/-- The model with one rule more. -/
def apply (model : Model Binary64) : Rule → Except RuleError (Model Binary64)
  | .beam size => .ok { model with beam := setOnce model.beam size }
  | .lookbehind size => .ok { model with lookbehind := setOnce model.lookbehind size }
  | .lookahead size => .ok { model with lookahead := setOnce model.lookahead size }
  | .pattern name patterns =>
    let (id, model) := model.internFeature name
    .ok (model.addPatterns id patterns)
  | .weight first second weight => do
    let pair ← model.resolvePair first second
    return { model with weights := model.weights.setNew pair weight }

/-- The model after one line more.  A line that carries no rule or is refused leaves it as it is. -/
def applyLine (model : Model Binary64) (line : Text) : Model Binary64 :=
  match Rule.ofLine line with
  | .ok (some rule) =>
    match model.apply rule with
    | .ok model => model
    | .error _ => model
  | .ok none => model
  | .error _ => model

/-- The model that a rule file gives. -/
def ofRules (text : Text) : Model Binary64 :=
  (text.lines.foldl applyLine {}).rebuildMatcher

/-- The model that a rule file in UTF-8 gives. -/
def ofRuleBytes (bytes : Bytes) : Except ModelError (Model Binary64) :=
  match Utf8.decode? bytes with
  | some text => .ok (ofRules text)
  | none => .error .notUtf8

/-! ## Writing -/

/-- A location by the name of its feature, or by its number when the feature has no name. -/
def locationText {α : Type} (model : Model α) (loc : Location) : Text :=
  match model.featureName? loc.feature with
  | some (c :: name) => Text.ofInt loc.position ++ ':' :: c :: name
  | _ => loc.text

/-- A line of words. -/
def ruleLine (words : List Text) : Text := [' '].intercalate words ++ ['\n']

/-- The lines for the settings. -/
def settingLines {α : Type} (model : Model α) : List Text :=
  [ruleLine [['B'], Text.ofNat model.beam], ruleLine [['L'], Text.ofNat model.lookbehind],
    ruleLine [['R'], Text.ofNat model.lookahead]]

/-- The lines for the features, one for each pattern. -/
def patternLines {α : Type} (model : Model α) : List Text :=
  (model.features.drop 1).flatMap fun feature =>
    feature.patterns.map fun pattern => ruleLine [['P'], feature.name, pattern]

/-- The line for a weight.  The universal partner of a location is left out. -/
def weightLine (model : Model Binary64) (pair : Pair) (weight : Binary64) : Text :=
  match pair.unary? with
  | some loc => ruleLine [['W'], model.locationText loc, weight.decimalText]
  | none =>
    ruleLine [['W'], model.locationText pair.first, model.locationText pair.second,
      weight.decimalText]

/-- A rule file for a model. -/
def rulesText (model : Model Binary64) : Text :=
  (model.settingLines ++ model.patternLines
    ++ model.weights.entries.map fun (pair, weight) => model.weightLine pair weight).flatten

end LexicalSelection.Model
