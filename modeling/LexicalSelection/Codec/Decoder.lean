import LexicalSelection.Text.Quoted
import LexicalSelection.Text.Utf8

/-!
# Decoding byte strings

A decoder takes a value from the front of a byte string or says why there is none.

* `CodecError` — the reasons, with `CodecError.message`.
* `Decoder` — a decoder; `Decoder.byte`, `Decoder.exactly`, `Decoder.times` are the parts that the
  formats are built from.
-/

namespace LexicalSelection

/-- What can be wrong with a stored table of symbols. -/
inductive SymbolTableProblem where
  /-- There are fewer symbols than reserved ones. -/
  | tooFew (count reserved : Nat)
  /-- A symbol has a kind that does not exist. -/
  | unknownKind (kind : Nat) (index : Nat)
  /-- A reserved symbol has another spelling or kind. -/
  | notReserved (index : Nat) (expected found : Text)
  /-- The spelling of a character is not one character. -/
  | notOneCharacter (index : Nat) (found : Text)
  /-- A spelling is not UTF-8. -/
  | notUtf8
  deriving DecidableEq, Repr

/-- The message for a problem with a table of symbols. -/
def SymbolTableProblem.message : SymbolTableProblem → String
  | tooFew count reserved => s!"{count} symbols, at least {reserved} reserved symbols required"
  | unknownKind kind index => s!"unknown kind {kind} for symbol {index}"
  | notReserved index expected found =>
    s!"symbol {index} must be the reserved {String.ofList expected}, " ++
      s!"found {String.ofList found.quoted}"
  | notOneCharacter index found => s!"character symbol {index} is {String.ofList found.quoted}"
  | notUtf8 => "string is not valid UTF-8"

/-- The reasons why a byte string does not hold the value it should. -/
inductive CodecError where
  /-- The bytes end inside the value. -/
  | unexpectedEnd
  /-- An integer is too large. -/
  | integerOverflow
  /-- The table of symbols is wrong. -/
  | symbolTable (problem : SymbolTableProblem)
  /-- A state has a number that no state of the automaton has. -/
  | stateOutOfRange (state count : Nat)
  /-- The states have another number of arcs than the automaton. -/
  | arcCount (expected actual : Nat)
  deriving DecidableEq, Repr

/-- The message for a value that is not there. -/
def CodecError.message : CodecError → String
  | unexpectedEnd => "unexpected end of data"
  | integerOverflow => "variable-length integer does not fit in 64 bits"
  | symbolTable problem => s!"invalid symbol table: {problem.message}"
  | stateOutOfRange state count => s!"state {state} out of range (automaton has {count} states)"
  | arcCount expected actual =>
    s!"transition table mismatch: header says {expected} transitions, states list {actual}"

/-- A decoder takes a value from the front of a byte string. -/
abbrev Decoder := StateT Bytes (Except CodecError)

namespace Decoder

/-- The next byte. -/
def byte : Decoder UInt8
  | [] => .error .unexpectedEnd
  | b :: rest => .ok (b, rest)

/-- The next `count` bytes. -/
def exactly (count : Nat) : Decoder Bytes := fun bytes =>
  let front := bytes.take count
  if front.length < count then .error .unexpectedEnd else .ok (front, bytes.drop count)

/-- Values of one decoder in a row, the number of them given. -/
def times {α : Type} (decoder : Decoder α) : Nat → Decoder (List α)
  | 0 => pure []
  | count + 1 => do
      let value ← decoder
      let values ← times decoder count
      return value :: values

end Decoder

end LexicalSelection
