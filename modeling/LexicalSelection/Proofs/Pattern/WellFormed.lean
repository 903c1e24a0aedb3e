import LexicalSelection.Proofs.Automaton.Layout
import LexicalSelection.Proofs.Pattern.Stored

/-!
# Automata and matchers that are read are well formed

Reading trusts no number that it finds.  Whatever bytes an automaton or a matcher has been read
from, its layout holds together, and no run over it looks up what is not there.

* `Storable.mem_finals_iff` — the final states of a matcher are those where features end.
* **`wellFormed_of_read`** — what is read is well formed, as an automaton and as a matcher, and
  nothing else is demanded of an automaton but that its numbers fit.
-/

namespace LexicalSelection

open Decoding

namespace Matcher

variable {matcher : Matcher} {state : Nat}

/-- The final states of a matcher that can be stored are the states where features end. -/
lemma Storable.mem_finals_iff (h : matcher.Storable) :
    state ∈ matcher.automaton.finals ↔ ∃ entry ∈ matcher.featureStates, entry.state = state := by
  rw [Automaton.mem_finals, ← h.finals, Automaton.size_withFinals, Automaton.isFinal_withFinals,
    List.mem_map]
  constructor
  · rintro ⟨-, -, hentry⟩
    exact hentry
  · rintro ⟨entry, hentry, rfl⟩
    have hlt := h.state_lt entry hentry
    exact ⟨hlt, hlt, entry, hentry, rfl⟩

/-- **What is read is well formed.**  An automaton that has been read, whatever the bytes, has
offsets that cut its table into one part for each state, and names no state that does not exist; its
runs, wherever their searches among arcs end, come only to states whose arcs can be looked up.  The
automaton of a matcher that has been read is no less well formed.  The states where features end
exist, and they are just its final states.

No more is demanded of an automaton: a well-formed one whose numbers fit is read from its bytes. -/
theorem wellFormed_of_read (bytes : Bytes) :
    (∀ automaton rest, Automaton.read bytes = .ok (automaton, rest) →
      automaton.WellFormed ∧ automaton.RunsInside) ∧
    (∀ matcher rest, read bytes = .ok (matcher, rest) →
      matcher.automaton.WellFormed ∧ matcher.automaton.RunsInside ∧
      (∀ entry ∈ matcher.featureStates, entry.state < matcher.automaton.size) ∧
      ∀ state, state ∈ matcher.automaton.finals ↔
        ∃ entry ∈ matcher.featureStates, entry.state = state) ∧
    ∀ automaton : Automaton, automaton.WellFormed → automaton.FitsWords →
      Automaton.read (automaton.write ++ bytes) = .ok (automaton, bytes) := by
  refine ⟨?_, ?_, ?_⟩
  · intro automaton rest hread
    have hstorable := Automaton.gives_read bytes automaton rest hread
    exact ⟨hstorable.wellFormed, hstorable.wellFormed.runsInside⟩
  · intro matcher rest hread
    have hstorable := gives_read bytes matcher rest hread
    have hautomaton := hstorable.automaton.wellFormed
    exact ⟨hautomaton, hautomaton.runsInside, hstorable.state_lt, fun _ => hstorable.mem_finals_iff⟩
  · intro automaton hautomaton hfits
    have hstorable := Automaton.storable_iff.2 ⟨hautomaton, hfits⟩
    exact (Automaton.takesAll_read hstorable).takes bytes

/-- The arcs of this automaton are out of order, so that a search may end behind the one for 5;
whether it does or not, the run ends in a state that exists.  The matcher has the automaton, and the
number of its final state comes from the states where features end. -/
theorem wellFormed_of_read_out_of_order :
    let bytes : Bytes := [2, 2, 2, 0, 7, 0, 0, 0, 1, 0, 0, 0, 5, 0, 0, 0, 1, 0, 0, 0, 1, 0]
    let file : Bytes := (({} : Alphabet).write ++ bytes) ++ [2, 1, 9, 1, 3]
    (∃ automaton, Automaton.read bytes = .ok (automaton, []) ∧ ¬ automaton.Ordered ∧
      automaton.WellFormed ∧ automaton.finals = [0] ∧
      automaton.runBy Automaton.Search.inOrder [.just 5] = [] ∧
      automaton.runBy (fun _ _ => 1) [.just 5] = [1] ∧ automaton.SliceInRange 1) ∧
    ∃ matcher, read file = .ok (matcher, []) ∧ matcher.automaton.WellFormed ∧
      matcher.featureStates = [⟨1, 3⟩, ⟨1, 9⟩] ∧
      (∀ state, state ∈ matcher.automaton.finals ↔ state = 1) ∧
      Automaton.read (matcher.automaton.write ++ [7]) = .ok (matcher.automaton, [7]) := by
  intro bytes file
  let automaton : Automaton := ⟨[0, 2, 2], [⟨7, 1⟩, ⟨5, 1⟩], [true, false]⟩
  have hread : Automaton.read bytes = .ok (automaton, []) := by decide +kernel
  let matcher : Matcher := ofFeatureStates {} automaton [⟨1, 3⟩, ⟨1, 9⟩]
  have hmatcher : read file = .ok (matcher, []) := by decide +kernel
  have hfits : matcher.automaton.FitsWords := ⟨by decide, by decide, by decide⟩
  obtain ⟨hwellFormed, hruns⟩ := (wellFormed_of_read bytes).1 automaton [] hread
  obtain ⟨hwellFormed', -, -, hfinals⟩ := (wellFormed_of_read file).2.1 matcher [] hmatcher
  have hactive : automaton.runBy (fun _ _ => 1) [.just 5] = [1] := by decide +kernel
  refine ⟨⟨automaton, hread, ?_, hwellFormed, by decide, by decide +kernel, hactive, ?_⟩,
    matcher, hmatcher, hwellFormed', rfl, fun state => ?_,
    (wellFormed_of_read [7]).2.2 matcher.automaton hwellFormed' hfits⟩
  · intro hordered
    exact absurd (hordered 0) (by decide)
  · exact (hruns (fun _ _ => 1) [.just 5] 1 (by simp [hactive])).2
  · rw [hfinals]
    simp [matcher, ofFeatureStates, eq_comm]

end Matcher

end LexicalSelection
