import LexicalSelection.Input
import LexicalSelection.Location

/-!
# Readings

A reading is one analysis of a token: characters and tags in a row.  It is kept as the pieces of its
text, from which both of its views follow.

* `Reading.form` — the text itself, escapes and tags as they were read.
* `Reading.symbols` — what patterns are matched against.
* `Reading.read`, `Reading.parse` — a reading from the front of an input, or of a text.
-/

namespace LexicalSelection

/-- A symbol of a reading. -/
inductive Symbol where
  /-- A character. -/
  | char (c : Char)
  /-- A tag by its number in the alphabet, or one that the alphabet lacks. -/
  | tag (id : Option Nat)
  deriving DecidableEq, Repr

/-- A piece of the text of a reading. -/
inductive Piece where
  /-- A character that stands for itself. -/
  | plain (c : Char)
  /-- A character behind an escape. -/
  | escaped (c : Char)
  /-- An escape at the end of the input, with no character behind it. -/
  | danglingEscape
  /-- A tag with its brackets, and its number in the alphabet. -/
  | tag (text : Text) (id : Option Nat)
  deriving DecidableEq, Repr

namespace Piece

/-- The text of a piece. -/
def text : Piece → Text
  | plain c => [c]
  | escaped c => [Input.escape, c]
  | danglingEscape => [Input.escape]
  | tag text _ => text

/-- The symbol of a piece; a dangling escape has none. -/
def symbol? : Piece → Option Symbol
  | plain c => some (.char c)
  | escaped c => some (.char c)
  | danglingEscape => none
  | tag _ id => some (.tag id)

end Piece

/-- One analysis of a token. -/
structure Reading where
  /-- The pieces of its text in order. -/
  pieces : List Piece := []
  /-- The numbers of the features it has, in ascending order. -/
  features : List Nat := []
  deriving DecidableEq, Repr

/-- The number of a tag, brackets included, in an alphabet. -/
abbrev TagNumbers := Text → Option Nat

namespace Reading

/-- The text of a reading as it was read. -/
def form (reading : Reading) : Text := reading.pieces.flatMap Piece.text

/-- The symbols of a reading. -/
def symbols (reading : Reading) : List Symbol := reading.pieces.filterMap Piece.symbol?

/-- The reading with one feature more. -/
def addFeature (feature : Nat) (reading : Reading) : Reading :=
  { reading with features := Ascending.insert feature reading.features }

/-- The features of a reading at a position. -/
def locations (position : Int) (reading : Reading) : List Location :=
  reading.features.map (⟨position, ·⟩)

/-! ## Reading from an input -/

/-- Does the character end a reading? -/
def endsReading (c : Char) : Bool :=
  c = Input.segmentSeparator || c = Input.readingSeparator || c = Input.unitClose

/-- The pieces up to the next character that ends a reading, or up to the end. -/
def readPieces (tags : TagNumbers) : Input → Found (List Piece)
  | [] => .ok [] []
  | .broken n :: rest => .error ⟨n⟩ rest
  | .char c :: rest =>
    if endsReading c then .ok [] (.char c :: rest)
    else if c = Input.escape then
      match rest with
      | [] => .ok [.danglingEscape] []
      | .broken n :: rest => .error ⟨n⟩ rest
      | .char d :: rest => (readPieces tags rest).map (.escaped d :: ·)
    else if c = '<' then
      match h : Input.readTag rest with
      | .error fault rest => .error fault rest
      | .ok tag rest =>
        have := Input.readTag_length h
        (readPieces tags rest).map (.tag tag (tags tag) :: ·)
    else (readPieces tags rest).map (.plain c :: ·)
termination_by input => input.length
decreasing_by all_goals simp only [List.length_cons]; omega

/-- Reading pieces takes items from the front only. -/
theorem readPieces_length {tags : TagNumbers} {input rest : Input} {pieces : List Piece}
    (h : readPieces tags input = .ok pieces rest) : rest.length ≤ input.length := by
  fun_induction readPieces tags input generalizing pieces with
  | case1 => cases h; simp
  | case2 => cases h
  | case3 => cases h; simp
  | case4 => cases h; simp
  | case5 => cases h
  | case6 d input _ ih =>
    obtain ⟨t, ht, -⟩ := Input.map_eq_ok.1 h
    have := ih ht
    simp only [List.length_cons]; omega
  | case7 => cases h
  | case8 input _ _ tag rest' hc hle ih =>
    obtain ⟨t, ht, -⟩ := Input.map_eq_ok.1 h
    have := ih ht
    simp only [List.length_cons]; omega
  | case9 c input _ _ _ ih =>
    obtain ⟨t, ht, -⟩ := Input.map_eq_ok.1 h
    have := ih ht
    simp only [List.length_cons]; omega

/-- The reading at the front of an input.  It has no features yet. -/
def read (tags : TagNumbers) (input : Input) : Found Reading :=
  (readPieces tags input).map fun pieces => { pieces }

/-- Reading takes items from the front only. -/
theorem read_length {tags : TagNumbers} {input rest : Input} {reading : Reading}
    (h : read tags input = .ok reading rest) : rest.length ≤ input.length := by
  obtain ⟨_, h, -⟩ := Input.map_eq_ok.1 h
  exact readPieces_length h

/-- The reading that a text begins with: what stands behind it is left out. -/
def parse (tags : TagNumbers) (text : Text) : Reading :=
  match read tags (Input.ofText text) with
  | .ok reading _ => reading
  | .error _ _ => {}

end Reading

end LexicalSelection
