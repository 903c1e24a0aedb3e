import LexicalSelection.Reading

/-!
# Lexical units

A tagged text is a row of units such as `^source/target/target$` with blank text before each.  A
unit without a source reading stands for the end of the stream or of a segment of it, and carries
the blank text there.

* `LexicalUnit.read` — the unit at the front of an input.
* `LexicalUnit.write` — a unit as text, with one of its targets chosen.
* `LexicalUnit.keepOnly`, `LexicalUnit.targetOrSole` — a unit after the choice, and a look at its
  target with the number that was chosen.
* `LexicalUnit.sourceLocations`, `LexicalUnit.targetLocations` — the features of a unit at a
  position.
-/

namespace LexicalSelection

/-- One place of a tagged text. -/
structure LexicalUnit where
  /-- The text before the unit. -/
  blank : Text := []
  /-- The reading to be translated; the end of a stream or segment has none. -/
  source : Option Reading := none
  /-- The readings to choose from. -/
  targets : List Reading := []
  deriving DecidableEq, Repr

namespace LexicalUnit

/-- Is there more than one target? -/
def ambiguous (unit : LexicalUnit) : Bool := 1 < unit.targets.length

/-- Is this the end of a stream or segment? -/
def isEnd (unit : LexicalUnit) : Bool := unit.source.isNone

/-- The number of line breaks before the unit. -/
def newlines (unit : LexicalUnit) : Nat := unit.blank.count '\n'

/-! ## Choosing a target -/

/-- The target with this number, or the only target whatever the number.  So a unit that has been
left with its chosen target still answers to the number of the choice. -/
def targetOrSole (index : Nat) (unit : LexicalUnit) : Option Reading :=
  match unit.targets[index]?, unit.targets with
  | some target, _ => some target
  | none, [target] => some target
  | none, _ => none

/-- The unit without all targets but the one with this number. -/
def keepOnly (index : Nat) (unit : LexicalUnit) : LexicalUnit :=
  { unit with targets := unit.targets[index]?.toList }

/-! ## Features -/

/-- The features of the source reading at a position. -/
def sourceLocations (position : Int) (unit : LexicalUnit) : List Location :=
  (unit.source.map (Reading.locations position)).getD []

/-- The features of a chosen target at a position. -/
def targetLocations (position : Int) (index : Nat) (unit : LexicalUnit) : List Location :=
  ((unit.targetOrSole index).map (Reading.locations position)).getD []

/-- The source features of units that lie one before the other, the first one at this distance. -/
def sourcesBefore (distance : Nat) : List LexicalUnit → List Location
  | [] => []
  | unit :: units => unit.sourceLocations (-distance) ++ sourcesBefore (distance + 1) units

/-- The source features of units that lie one behind the other, the first one at this distance. -/
def sourcesFrom (distance : Nat) : List LexicalUnit → List Location
  | [] => []
  | unit :: units => unit.sourceLocations distance ++ sourcesFrom (distance + 1) units

/-! ## Writing -/

/-- The unit as text.

The target with number `selected` follows the source reading, which `withSurface` asks for.  When
`selectedFirst` asks for them, the other targets come after it in their order.  A number that no
target has chooses none. -/
def write (selected : Nat) (selectedFirst withSurface : Bool) (unit : LexicalUnit) : Text :=
  match unit.source with
  | none => unit.blank
  | some source =>
    let chosen := unit.targets[selected]?.toList.map Reading.form
    let others := (unit.targets.eraseIdx selected).map Reading.form
    unit.blank ++ [Input.unitOpen]
      ++ (if withSurface then source.form else [])
      ++ chosen.flatMap (if withSurface then (Input.readingSeparator :: ·) else id)
      ++ (if selectedFirst then others.flatMap (Input.readingSeparator :: ·) else [])
      ++ [Input.unitClose]

/-! ## Reading -/

/-- The target readings at the front of an input, each behind a separator. -/
def readTargets (tags : TagNumbers) : Input → Found (List Reading)
  | .char c :: rest =>
    if c = Input.readingSeparator then
      match h : Reading.read tags rest with
      | .error fault rest => .error fault rest
      | .ok target rest =>
        have := Reading.read_length h
        (readTargets tags rest).map (target :: ·)
    else .ok [] (.char c :: rest)
  | .broken n :: rest => .error ⟨n⟩ rest
  | [] => .ok [] []
termination_by input => input.length
decreasing_by simp only [List.length_cons]; omega

/-- Target readings are taken from the front only. -/
theorem readTargets_length {tags : TagNumbers} {input rest : Input} {targets : List Reading}
    (h : readTargets tags input = .ok targets rest) : rest.length ≤ input.length := by
  fun_induction readTargets tags input generalizing targets with
  | case1 => cases h
  | case2 input target rest' hr hle ih =>
    obtain ⟨t, ht, -⟩ := Input.map_eq_ok.1 h
    have := ih ht
    simp only [List.length_cons]; omega
  | case3 => cases h; simp
  | case4 => cases h
  | case5 => cases h; simp

/-- Takes the character that closes a unit, if it comes next. -/
def readClose : Input → Found Unit
  | [] => .ok () []
  | .broken n :: rest => .error ⟨n⟩ rest
  | .char c :: rest => if c = Input.unitClose then .ok () rest else .ok () (.char c :: rest)

/-- Closing a unit takes items from the front only. -/
theorem readClose_length {input rest : Input} (h : readClose input = .ok () rest) :
    rest.length ≤ input.length := by
  unfold readClose at h
  split at h
  · cases h; simp
  · cases h
  · split at h <;> cases h <;> simp

/-- The readings of a unit whose opening character has been taken. -/
def readReadings (tags : TagNumbers) : Reader (Reading × List Reading) := do
  let source ← Reading.read tags
  let targets ← readTargets tags
  readClose
  return (source, targets)

/-- The readings of a unit are taken from the front only. -/
theorem readReadings_length {tags : TagNumbers} {input rest : Input}
    {readings : Reading × List Reading} (h : readReadings tags input = .ok readings rest) :
    rest.length ≤ input.length := by
  simp only [readReadings, bind, EStateM.bind] at h
  split at h
  · rename_i source rest₁ h₁
    split at h
    · rename_i targets rest₂ h₂
      split at h
      · rename_i rest₃ h₃
        cases h
        have := Reading.read_length h₁
        have := readTargets_length h₂
        have := readClose_length h₃
        omega
      · cases h
    · cases h
  · cases h

/-- The unit at the front of an input.  What comes before the next `^` is its blank; a unit that is
not closed ends at a segment separator or with the input. -/
def read (tags : TagNumbers) (input : Input) : Found LexicalUnit :=
  match Input.readBlank input with
  | .error fault rest => .error fault rest
  | .ok blank [] => .ok { blank } []
  | .ok _ (.broken n :: rest) => .error ⟨n⟩ rest
  | .ok blank (.char c :: rest) =>
    if c = Input.unitOpen then
      Found.map (fun (source, targets) => { blank, source := some source, targets })
        (readReadings tags rest)
    else .ok { blank } (.char c :: rest)

/-- A unit is taken from the front, and one that is no end takes a character at least. -/
theorem read_length {tags : TagNumbers} {input rest : Input} {unit : LexicalUnit}
    (h : read tags input = .ok unit rest) :
    rest.length + (if unit.isEnd then 0 else 1) ≤ input.length := by
  unfold read at h
  split at h
  · cases h
  · cases h; simp [isEnd]
  · cases h
  · rename_i blank c rest' hb
    have hlen := Input.readBlank_length hb
    simp only [List.length_cons] at hlen
    split at h
    · obtain ⟨readings, hr, rfl⟩ := Input.map_eq_ok.1 h
      have := readReadings_length hr
      simp only [isEnd, Option.isNone_some, Bool.false_eq_true, if_false]
      omega
    · cases h; simpa [isEnd] using hlen

end LexicalUnit

end LexicalSelection
