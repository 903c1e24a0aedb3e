import LexicalSelection.Alphabet.Basic
import LexicalSelection.Automaton.Basic
import LexicalSelection.Pattern.Syntax
import LexicalSelection.Reading

/-!
# Matching many patterns at once

The patterns of all features are put into one automaton.  A word of it is a side, the symbols of a
reading, and a mark that says which feature the pattern belongs to; a reading has a feature when its
run ends in a state from which the mark of the feature leads to the end.

* `Matcher.compile` — the matcher for a list of patterns.
* `Matcher.features` — the features of a reading.
-/

namespace LexicalSelection

/-- A state where readings with a feature end. -/
structure FeatureState where
  /-- The state. -/
  state : Nat
  /-- The feature. -/
  feature : Nat
  deriving DecidableEq, Repr

/-- Ordered by state and then by feature. -/
instance : Ord FeatureState where
  compare := compareLex (compareOn FeatureState.state) (compareOn FeatureState.feature)

/-- Patterns of features, ready to be matched. -/
structure Matcher where
  /-- What the symbols of the automaton stand for. -/
  alphabet : Alphabet
  /-- The patterns.  Its final states are those where some feature ends. -/
  automaton : Automaton
  /-- Which features end where, in ascending order. -/
  featureStates : List FeatureState
  deriving DecidableEq, Repr

namespace Matcher

/-! ## Putting patterns together -/

/-- A matcher under construction. -/
structure Draft where
  /-- The symbols so far. -/
  alphabet : Alphabet := {}
  /-- The words of all patterns so far. -/
  graph : Graph := .start
  /-- The marks of the features so far. -/
  marks : List (Nat × Nat) := []

namespace Draft

/-- The symbol that begins a side. -/
def sideSymbol : Side → Nat
  | .source => Alphabet.sourceSide
  | .target => Alphabet.targetSide

/-- The spelling of the mark of a feature. -/
def markSpelling (feature : Nat) : Text :=
  "<RULE_NUMBER:".toList ++ Text.ofNat feature ++ ['>']

/-- A new state behind the start, for one side or for both, and the draft with it. -/
def addSide (side : Option Side) (draft : Draft) : Nat × Draft :=
  match side with
  | some side =>
    let (state, graph) := draft.graph.addArc Automaton.initial (sideSymbol side)
    (state, { draft with graph })
  | none =>
    let (state, graph) := draft.graph.addArc Automaton.initial Alphabet.sourceSide
    (state, { draft with graph := graph.link Automaton.initial state Alphabet.targetSide })

/-- The state behind `state` and one symbol of the alphabet, and the draft with it. -/
def addSymbol (symbol : NamedSymbol) (state : Nat) (draft : Draft) : Nat × Draft :=
  let (number, alphabet) := draft.alphabet.intern symbol
  let (state, graph) := draft.graph.addArc state number
  (state, { draft with alphabet, graph })

/-- The state behind `state` and an atom, and the draft with it.  Wildcards stay in the state. -/
def addAtom (atom : Atom) (state : Nat) (draft : Draft) : Nat × Draft :=
  match atom with
  | .anyChars => (state, { draft with graph := draft.graph.link state state Alphabet.anyChar })
  | .anyTags => (state, { draft with graph := draft.graph.link state state Alphabet.anyTag })
  | .char c => draft.addSymbol (.char, [c]) state
  | .tag text => draft.addSymbol (.tag, text) state

/-- The state behind `state` and some atoms, and the draft with it. -/
def addAtoms : List Atom → Nat → Draft → Nat × Draft
  | [], state, draft => (state, draft)
  | atom :: atoms, state, draft =>
    let (state, draft) := draft.addAtom atom state
    addAtoms atoms state draft

/-- The draft with a pattern for a feature. -/
def addPattern (draft : Draft) (feature : Nat) (pattern : Pattern) : Draft :=
  let (mark, alphabet) := draft.alphabet.intern (.special, markSpelling feature)
  let draft := { draft with alphabet, marks := (mark, feature) :: draft.marks }
  let (state, draft) := draft.addSide pattern.side
  let (state, draft) := addAtoms pattern.atoms state draft
  let (last, graph) := draft.graph.addArc state mark
  { draft with graph := graph.setFinal last }

end Draft

/-! ## The finished matcher -/

/-- The states of an automaton from which the mark of a feature leads to the end. -/
def findFeatureStates (marks : List (Nat × Nat)) (automaton : Automaton) : List FeatureState :=
  Ascending.ofList <| (List.range automaton.size).flatMap fun state =>
    (automaton.arcs state).filterMap fun arc =>
      if automaton.isFinal arc.target then (marks.lookup arc.symbol).map (⟨state, ·⟩) else none

/-- A matcher whose automaton ends where features do. -/
def ofFeatureStates (alphabet : Alphabet) (automaton : Automaton)
    (featureStates : List FeatureState) : Matcher :=
  { alphabet, featureStates
    automaton := automaton.withFinals (featureStates.map FeatureState.state) }

/-- The matcher for patterns, each of which belongs to a feature. -/
def compile (patterns : List (Nat × Text)) : Matcher :=
  let draft := patterns.foldl (fun draft (feature, text) =>
    draft.addPattern feature (.ofText text)) ({} : Draft)
  let automaton := Automaton.ofGraph draft.graph.minimize
  ofFeatureStates draft.alphabet automaton (findFeatureStates draft.marks automaton)

/-! ## Matching -/

/-- The symbols that a symbol of a reading may be matched by: itself, if the alphabet has it, and
the wildcard for its class. -/
def offered (matcher : Matcher) : Symbol → List Nat
  | .char c => Automaton.eitherOf (matcher.alphabet.charNumber? c) Alphabet.anyChar
  | .tag id => Automaton.eitherOf id Alphabet.anyTag

/-- The states where the runs over a reading of a side end. -/
def run (matcher : Matcher) (side : Side) (symbols : List Symbol) : List Nat :=
  symbols.foldl (fun active symbol => matcher.automaton.step (matcher.offered symbol) active)
    (matcher.automaton.step [Draft.sideSymbol side] Automaton.start)

/-- The features of a reading of a side, in ascending order. -/
def features (matcher : Matcher) (side : Side) (reading : Reading) : List Nat :=
  let ends := (matcher.run side reading.symbols).filter matcher.automaton.isFinal
  Ascending.ofList <| ends.flatMap fun state =>
    (matcher.featureStates.filter (·.state = state)).map FeatureState.feature

/-- The reading with its features added. -/
def annotate (matcher : Matcher) (side : Side) (reading : Reading) : Reading :=
  (matcher.features side reading).foldl (fun reading feature => reading.addFeature feature) reading

end Matcher

end LexicalSelection
