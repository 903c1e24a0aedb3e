import LexicalSelection.Codec.Decoder

/-!
# Reasons why there is no model

* `ModelError` — the reasons why a file gives no model, or a model no file.
* `ModelError.message`, `ModelError.cause?` — a reason in words, and what lies behind it.
-/

namespace LexicalSelection

/-- The reasons why a file gives no model, or a model no file. -/
inductive ModelError where
  /-- The first bytes of a weights file are missing. -/
  | missingHeader
  /-- The flags of a weights file end early. -/
  | flagsCutShort
  /-- A flag of a weights file is set. -/
  | unsupportedFlags (flags : Nat)
  /-- The position of a location cannot be stored, or cannot have been. -/
  | positionOutOfWindow (position : Int) (lookbehind lookahead : Nat)
  /-- A stored value is not there. -/
  | stored (error : CodecError)
  /-- A rule file is not UTF-8. -/
  | notUtf8
  deriving DecidableEq, Repr

namespace ModelError

/-- What lies behind a reason, in words. -/
def cause? : ModelError → Option String
  | flagsCutShort => some "failed to fill whole buffer"
  | stored error => some error.message
  | notUtf8 => some "stream did not contain valid UTF-8"
  | _ => none

/-- A natural number in hexadecimal digits. -/
def hexDigits (n : Nat) : String := String.ofList (Nat.toDigits 16 n)

/-- The message for a reason. -/
def message (error : ModelError) : String :=
  match error with
  | missingHeader => "weights file is missing the APSL header"
  | flagsCutShort | notUtf8 => s!"I/O error: {error.cause?.getD default}"
  | unsupportedFlags flags =>
    s!"weights file uses unsupported features (flags 0x{hexDigits flags}); upgrade the selector"
  | positionOutOfWindow position lookbehind lookahead =>
    s!"feature position {position} lies outside the -{lookbehind}..={lookahead} window"
  | stored error => s!"corrupt weights file: {error.message}"

end ModelError

end LexicalSelection
