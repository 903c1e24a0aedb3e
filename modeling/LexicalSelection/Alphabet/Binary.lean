import LexicalSelection.Alphabet.Basic
import LexicalSelection.Codec.Text

/-!
# Stored alphabets

An alphabet is stored as the number of its symbols and, for each symbol, a byte for its kind and its
spelling.  The reserved symbols are stored too and must be the first four.

* `Alphabet.write`, `Alphabet.read` — the format.
-/

namespace LexicalSelection

namespace SymbolKind

/-- The byte for a kind. -/
def byte : SymbolKind → UInt8
  | special => 0
  | char => 1
  | tag => 2

/-- The kind that a byte stands for. -/
def ofByte? (b : UInt8) : Option SymbolKind :=
  if b = 0 then some special else if b = 1 then some char else if b = 2 then some tag else none

end SymbolKind

namespace Alphabet

/-- The bytes of a symbol. -/
def writeSymbol (symbol : NamedSymbol) : Bytes := symbol.1.byte :: Codec.writeText symbol.2

/-- The bytes of an alphabet. -/
def write (alphabet : Alphabet) : Bytes :=
  Codec.writeNat alphabet.size ++ alphabet.symbols.flatMap writeSymbol

/-- What is wrong with a symbol that has a reserved number, if anything is. -/
def reservedProblem? (number : Nat) (symbol : NamedSymbol) : Option SymbolTableProblem :=
  match reservedSpellings[number]? with
  | some expected =>
    if symbol = (SymbolKind.special, expected) then none
    else some (.notReserved number expected symbol.2)
  | none => none

/-- What is wrong with a symbol that has this number, if anything is. -/
def symbolProblem? (number : Nat) (symbol : NamedSymbol) : Option SymbolTableProblem :=
  match reservedProblem? number symbol with
  | some problem => some problem
  | none =>
    if symbol.1 = SymbolKind.char ∧ symbol.2.length ≠ 1 then
      some (.notOneCharacter number symbol.2)
    else none

/-- The symbol with this number at the front of a byte string. -/
def readSymbol (number : Nat) : Decoder NamedSymbol := do
  let b ← Decoder.byte
  match SymbolKind.ofByte? b with
  | none => throw (.symbolTable (.unknownKind b.toNat number))
  | some kind =>
    let spelling ← Codec.readText
    match symbolProblem? number (kind, spelling) with
    | some problem => throw (.symbolTable problem)
    | none => return (kind, spelling)

/-- Symbols in a row, the first of which has this number. -/
def readSymbols (number : Nat) : Nat → Decoder (List NamedSymbol)
  | 0 => pure []
  | count + 1 => do
      let symbol ← readSymbol number
      let symbols ← readSymbols (number + 1) count
      return symbol :: symbols

/-- The alphabet at the front of a byte string.  The announced number of symbols is not checked
against the bytes that are left.  One that is too large for them ends in an error when they run out;
it would be fatal to make room for all symbols first, when there is no room for so many. -/
def read : Decoder Alphabet := do
  let count ← Codec.readNat
  if count < reserved.length then throw (.symbolTable (.tooFew count reserved.length))
  else return ⟨(← readSymbols 0 count).drop reserved.length⟩

end Alphabet

end LexicalSelection
