import LexicalSelection.Codec.Real
import LexicalSelection.Model.Basic
import LexicalSelection.Model.Error
import LexicalSelection.Pattern.Binary

/-!
# Models as weights files

A weights file holds a model in the form that is needed for selecting: a header, flags, the
settings, the matcher and the weights.  Names and patterns of features are not in it.  Positions are
stored as their distance from the start of the window.

* `Model.compile` — the weights file of a model; `Model.emit` — what is written of it when a
  position cannot be stored.
* `Model.load` — the model of a weights file.
-/

namespace LexicalSelection

namespace Model

/-- The bytes that begin a weights file. -/
def header : Bytes := Text.utf8 ['A', 'P', 'S', 'L']

/-! ## Positions -/

/-- An integer in 64 bits of two's complement. -/
def wrap64 (z : Int) : Int := z.bmod 0x10000000000000000

/-- The distance of a position from the start of the window. -/
def storedPosition (lookbehind lookahead : Nat) (position : Int) : Except ModelError Nat :=
  let distance := wrap64 (position + wrap64 lookbehind)
  if 0 ≤ distance then .ok distance.toNat
  else .error (.positionOutOfWindow position lookbehind lookahead)

/-- The position with a distance from the start of the window; positions have 32 bits. -/
def positionOfStored (lookbehind lookahead distance : Nat) : Except ModelError Int :=
  let position := wrap64 (min (distance : Int) 0x7FFFFFFFFFFFFFFF - wrap64 lookbehind)
  if -0x80000000 ≤ position ∧ position < 0x80000000 then .ok position
  else .error (.positionOutOfWindow position lookbehind lookahead)

/-! ## Writing -/

/-- A part of a weights file: its bytes, or the reason why it cannot be written. -/
abbrev FilePart := Except ModelError Bytes

/-- The bytes of a location. -/
def writeLocation {α : Type} (model : Model α) (loc : Location) : FilePart := do
  let distance ← storedPosition model.lookbehind model.lookahead loc.position
  return Codec.writeNat distance ++ Codec.writeNat loc.feature

/-- The parts of an entry of a row of weights. -/
def entryParts (model : Model Binary64) (entry : Location × Binary64) : List FilePart :=
  [model.writeLocation entry.1, .ok (Codec.writeReal entry.2)]

/-- The parts of a row of weights. -/
def rowParts (model : Model Binary64) (row : Location × WeightRow Binary64) : List FilePart :=
  model.writeLocation row.1 :: .ok (Codec.writeNat row.2.length) :: row.2.flatMap model.entryParts

/-- The bytes in front of the weights. -/
def writeSettings {α : Type} (model : Model α) : Bytes :=
  header ++ Codec.writeWord 8 0
    ++ Codec.writeNat model.beam ++ Codec.writeNat model.lookbehind
    ++ Codec.writeNat model.lookahead ++ model.matcher.write

/-- The parts of the weights file of a model, in their order. -/
def fileParts (model : Model Binary64) : List FilePart :=
  .ok (model.writeSettings ++ Codec.writeNat model.weights.rows.length)
    :: model.weights.rows.flatMap model.rowParts

/-- What has been written when writing parts in their order ends: the bytes in front of the first
part that cannot be written, and the reason why it cannot. -/
def writeParts : List FilePart → Bytes × Option ModelError
  | [] => ([], none)
  | .error error :: _ => ([], some error)
  | .ok bytes :: rest =>
    let (behind, failure) := writeParts rest
    (bytes ++ behind, failure)

/-- What has been written of the weights file of a model when writing ends, and the reason why it
ended early. -/
def emit (model : Model Binary64) : Bytes × Option ModelError := writeParts model.fileParts

/-- The weights file of a model. -/
def compile (model : Model Binary64) : Except ModelError Bytes :=
  match model.emit with
  | (bytes, none) => .ok bytes
  | (_, some error) => .error error

/-! ## Reading -/

/-- A loader takes a part of a model from the front of a byte string. -/
abbrev Loader := StateT Bytes (Except ModelError)

/-- A stored value as a part of a model. -/
def Loader.ofDecoder {α : Type} (decoder : Decoder α) : Loader α := fun bytes =>
  match decoder bytes with
  | .ok found => .ok found
  | .error error => .error (.stored error)

/-- The next natural number. -/
def Loader.nat : Loader Nat := Loader.ofDecoder Codec.readNat

/-- Takes the header. -/
def Loader.header : Loader Unit := fun bytes =>
  if Model.header <+: bytes then .ok ((), bytes.drop Model.header.length)
  else .error .missingHeader

/-- Takes the flags, none of which may be set. -/
def Loader.flags : Loader Unit := fun bytes =>
  match Codec.readWord 8 bytes with
  | .error _ => .error .flagsCutShort
  | .ok (flags, rest) => if flags = 0 then .ok ((), rest) else .error (.unsupportedFlags flags)

/-- The next location. -/
def Loader.location (lookbehind lookahead : Nat) : Loader Location := do
  let distance ← Loader.nat
  let position ← liftM (positionOfStored lookbehind lookahead distance)
  return ⟨position, ← Loader.nat⟩

/-- The next entries of a row, the number of them given, put into a row.  Of two entries for one
location the later one counts. -/
def Loader.entries (lookbehind lookahead : Nat) :
    Nat → WeightRow Binary64 → Loader (WeightRow Binary64)
  | 0, row => pure row
  | count + 1, row => do
      let second ← Loader.location lookbehind lookahead
      let weight ← Loader.ofDecoder Codec.readReal
      Loader.entries lookbehind lookahead count (Ascending.put second weight row)

/-- The next rows, the number of them given, put into a table.  Of two rows for one location the
later one counts. -/
def Loader.rows (lookbehind lookahead : Nat) :
    Nat → WeightTable Binary64 → Loader (WeightTable Binary64)
  | 0, table => pure table
  | count + 1, table => do
      let first ← Loader.location lookbehind lookahead
      let row ← Loader.entries lookbehind lookahead (← Loader.nat) []
      Loader.rows lookbehind lookahead count ⟨Ascending.put first row table.rows⟩

/-- The model at the front of a weights file. -/
def load : Loader (Model Binary64) := do
  Loader.header
  Loader.flags
  let beam ← Loader.nat
  let lookbehind ← Loader.nat
  let lookahead ← Loader.nat
  let matcher ← Loader.ofDecoder Matcher.read
  let weights ← Loader.rows lookbehind lookahead (← Loader.nat) {}
  return { beam, lookbehind, lookahead, matcher, weights }

end Model

end LexicalSelection
