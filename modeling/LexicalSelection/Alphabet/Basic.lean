import LexicalSelection.Text.Basic

/-!
# Alphabets

The symbols of an automaton are numbers.  An alphabet says what they stand for: characters, tags and
special marks.  The numbers 0 to 3 are reserved for the marks that every automaton uses; the others
are given out in the order in which symbols are first asked for.

* `Alphabet.intern` — the number of a symbol, which is added if it is new.
* `Alphabet.number?` — the number of a symbol that is there.
* `Alphabet.symbol?` — the symbol with a number.
-/

namespace LexicalSelection

/-- The three kinds of symbols. -/
inductive SymbolKind where
  /-- A mark that no text contains. -/
  | special
  /-- A character. -/
  | char
  /-- A tag, spelled with its brackets. -/
  | tag
  deriving DecidableEq, Repr

/-- A symbol: its kind and its spelling. -/
abbrev NamedSymbol := SymbolKind × Text

/-- The symbols that stand behind the reserved ones. -/
structure Alphabet where
  /-- The symbols from number 4 on. -/
  added : List NamedSymbol := []
  deriving DecidableEq, Repr

namespace Alphabet

/-! ## Reserved symbols -/

/-- The spellings of the reserved marks. -/
def reservedSpellings : List Text :=
  ["<ANY_CHAR>".toList, "<ANY_TAG>".toList, "<side:sl>".toList, "<side:tl>".toList]

/-- The symbols 0 to 3. -/
def reserved : List NamedSymbol := reservedSpellings.map (.special, ·)

/-- Stands for every character. -/
def anyChar : Nat := 0

/-- Stands for every tag. -/
def anyTag : Nat := 1

/-- Begins the source side of a unit. -/
def sourceSide : Nat := 2

/-- Begins the target side of a unit. -/
def targetSide : Nat := 3

/-! ## Symbols and numbers -/

/-- All symbols by number. -/
def symbols (alphabet : Alphabet) : List NamedSymbol := reserved ++ alphabet.added

/-- The number of symbols. -/
def size (alphabet : Alphabet) : Nat := reserved.length + alphabet.added.length

/-- The symbol with a number. -/
def symbol? (alphabet : Alphabet) (number : Nat) : Option NamedSymbol := alphabet.symbols[number]?

/-- The last place of a symbol in a list whose first member has this number. -/
def lastNumber? (symbol : NamedSymbol) (number : Nat) : List NamedSymbol → Option Nat
  | [] => none
  | other :: rest =>
    match lastNumber? symbol (number + 1) rest with
    | some found => some found
    | none => if other = symbol then some number else none

/-- The number of a symbol.  Reserved marks are not found by their spelling, and of two equal
symbols the later one is found. -/
def number? (alphabet : Alphabet) (symbol : NamedSymbol) : Option Nat :=
  lastNumber? symbol reserved.length alphabet.added

/-- The number of a symbol, and the alphabet with the symbol in it. -/
def intern (symbol : NamedSymbol) (alphabet : Alphabet) : Nat × Alphabet :=
  match alphabet.number? symbol with
  | some number => (number, alphabet)
  | none => (alphabet.size, ⟨alphabet.added ++ [symbol]⟩)

/-- The number of a character. -/
def charNumber? (alphabet : Alphabet) (c : Char) : Option Nat := alphabet.number? (.char, [c])

/-- The number of a tag, brackets included. -/
def tagNumber? (alphabet : Alphabet) (tag : Text) : Option Nat := alphabet.number? (.tag, tag)

end Alphabet

end LexicalSelection
