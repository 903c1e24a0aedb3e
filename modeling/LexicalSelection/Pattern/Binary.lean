import LexicalSelection.Alphabet.Binary
import LexicalSelection.Automaton.Binary
import LexicalSelection.Pattern.Matcher

/-!
# Stored matchers

A matcher is stored as its alphabet, its automaton and the list of the states where features end.

* `Matcher.write`, `Matcher.read` — the format.
-/

namespace LexicalSelection.Matcher

/-- The bytes of a state where a feature ends. -/
def writeFeatureState (entry : FeatureState) : Bytes :=
  Codec.writeNat entry.state ++ Codec.writeNat entry.feature

/-- The bytes of a matcher. -/
def write (matcher : Matcher) : Bytes :=
  matcher.alphabet.write ++ matcher.automaton.write
    ++ Codec.writeNat matcher.featureStates.length
    ++ matcher.featureStates.flatMap writeFeatureState

/-- The next state where a feature ends, in an automaton with `count` states. -/
def readFeatureState (count : Nat) : Decoder FeatureState := do
  return ⟨← Automaton.readState count, ← Codec.readNat⟩

/-- The matcher at the front of a byte string.  The states where features end may be stored in any
order, and more than once. -/
def read : Decoder Matcher := do
  let alphabet ← Alphabet.read
  let automaton ← Automaton.read
  let entries ← Decoder.times (readFeatureState automaton.size) (← Codec.readNat)
  return ofFeatureStates alphabet automaton (Ascending.ofList entries)

end LexicalSelection.Matcher
