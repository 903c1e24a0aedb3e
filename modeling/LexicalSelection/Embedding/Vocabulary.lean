import LexicalSelection.LexicalUnit.Stream
import LexicalSelection.Order.Ascending

/-!
# Vocabularies

The vocabulary of a corpus numbers its word forms.  Number 0 stands for every form that is empty or
too rare to have a number of its own.

* `Vocabulary` — the words with a number of their own, and how often number 0 occurs.
* `Vocabulary.ofForms` — the vocabulary of all forms in a row of them.
* `Vocabulary.trim` — a vocabulary without its rare words, the frequent ones first.
* `NumberedCorpus.ofUnits`, `NumberedCorpus.read` — a corpus as sentences of numbers.
-/

namespace LexicalSelection.Embedding

/-- A word with a number of its own. -/
structure Word where
  /-- Its form. -/
  form : Text
  /-- How often it occurs. -/
  count : Nat
  /-- The place where it occurs first. -/
  first : Nat
  deriving DecidableEq, Repr

/-- Frequent words come first, and of words that are as frequent the one that occurs first. -/
instance : Ord Word :=
  ⟨fun a b => (compare b.count a.count).then (compare a.first b.first)⟩

/-- How often some words occur together. -/
def occurrences (words : List Word) : Nat := words.foldr (fun word total => word.count + total) 0

/-- The numbered words of a corpus. -/
structure Vocabulary where
  /-- How often a word without a number of its own occurs. -/
  unknown : Nat := 0
  /-- The words with numbers from 1 on. -/
  words : List Word := []
  deriving DecidableEq, Repr

namespace Vocabulary

/-- How many numbers there are. -/
def size (vocabulary : Vocabulary) : Nat := vocabulary.words.length + 1

/-- The form with a number; it is empty for number 0. -/
def form? (vocabulary : Vocabulary) : Nat → Option Text
  | 0 => some []
  | index + 1 => vocabulary.words[index]?.map Word.form

/-- How often a number occurs. -/
def count (vocabulary : Vocabulary) : Nat → Nat
  | 0 => vocabulary.unknown
  | index + 1 => (vocabulary.words[index]?.map Word.count).getD 0

/-- The number of a form, if it has one; it is 0 for the empty form. -/
def id? (vocabulary : Vocabulary) (form : Text) : Option Nat :=
  if form = [] then some 0
  else ((vocabulary.words.map Word.form).idxOf? form).map (· + 1)

/-- The number that stands for a form in a corpus. -/
def idOf (vocabulary : Vocabulary) (form : Text) : Nat := (vocabulary.id? form).getD 0

/-- The vocabulary of a row of forms, in the order in which they occur. -/
def ofForms (forms : List Text) : Vocabulary where
  unknown := forms.count []
  words := (forms.filter (· ≠ [])).eraseDups.map fun form =>
    ⟨form, forms.count form, forms.idxOf form⟩

/-- The vocabulary without the words that occur less often than `minCount`, which count as unknown.
The others are put in order. -/
def trim (minCount : Nat) (vocabulary : Vocabulary) : Vocabulary where
  unknown := vocabulary.unknown + occurrences (vocabulary.words.filter (·.count < minCount))
  words := Ascending.ofList (vocabulary.words.filter (minCount ≤ ·.count))

end Vocabulary

/-! ## Corpora -/

/-- A corpus as sentences of numbers, and what the numbers stand for. -/
structure NumberedCorpus where
  /-- The numbered words. -/
  vocabulary : Vocabulary := {}
  /-- The sentences; a corpus without a word is one empty sentence. -/
  sentences : List (List Nat) := [[]]
  deriving DecidableEq, Repr

/-- The sentences of a row of units: each begins with the first unit or with one behind a line
break. -/
def sentencesOf (units : List LexicalUnit) : List (List LexicalUnit) :=
  if units = [] then [[]] else units.splitBy fun _ next => next.newlines = 0

/-- The form of the source reading of a unit. -/
def sourceForm (unit : LexicalUnit) : Text := (unit.source.map Reading.form).getD []

namespace NumberedCorpus

/-- Units as sentences of numbers. -/
def ofVocabulary (vocabulary : Vocabulary) (units : List LexicalUnit) : NumberedCorpus where
  vocabulary
  sentences := (sentencesOf units).map (·.map fun unit => vocabulary.idOf (sourceForm unit))

/-- The corpus of some units, with numbers for the words that occur often enough. -/
def ofUnits (minCount : Nat) (units : List LexicalUnit) : NumberedCorpus :=
  ofVocabulary ((Vocabulary.ofForms (units.map sourceForm)).trim minCount) units

/-- The corpus of the units before a broken sequence, with numbers for all words. -/
def ofUnitsBroken (units : List LexicalUnit) : NumberedCorpus :=
  ofVocabulary (Vocabulary.ofForms (units.map sourceForm)) units

/-- The units of a stream that have a source reading, and the broken sequence behind them. -/
def readUnits (bytes : Bytes) : List LexicalUnit × Option BrokenSequence :=
  let (units, fault) := LexicalUnit.readAll (fun _ => none) (Input.ofBytes bytes)
  (units.filter (!·.isEnd), fault)

/-- The corpus of a stream.  At a broken sequence reading stops, and no word is left out for being
rare. -/
def read (minCount : Nat) (bytes : Bytes) : NumberedCorpus × Option BrokenSequence :=
  match readUnits bytes with
  | (units, none) => (ofUnits minCount units, none)
  | (units, some fault) => (ofUnitsBroken units, some fault)

end NumberedCorpus

end LexicalSelection.Embedding
