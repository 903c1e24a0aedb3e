import LexicalSelection.Proofs.Automaton.Layout

/-!
# Stored automata are whole

Every automaton, however it has come about, is read back from its bytes, and from nothing less than
all of them: the format says in advance how many bytes there will be, so that a cut is always
noticed as such, whichever field it falls into.

* `Obtained` — the ways in which automata come about.
* `Obtained.storable` — all of them lead to automata that can be stored.
* **`read_whole`** — an automaton is read back, and no strict prefix of its bytes is read.
-/

namespace LexicalSelection.Automaton

open Decoding

/-- An automaton is a built graph laid out as it is or after it has been minimized, or has been
read, or is another one with other final states. -/
inductive Obtained : Automaton → Prop
  | built {graph : Graph} (h : graph.Built) : Obtained (ofGraph graph)
  | minimized {graph : Graph} (h : graph.Built) : Obtained (ofGraph graph.minimize)
  | withFinals {automaton : Automaton} (h : Obtained automaton) (states : List Nat) :
      Obtained (automaton.withFinals states)
  | read {automaton : Automaton} {bytes rest : Bytes} (h : read bytes = .ok (automaton, rest)) :
      Obtained automaton

variable {automaton : Automaton}

lemma FitsWords.of_withFinals {states : List Nat} (h : (automaton.withFinals states).FitsWords) :
    automaton.FitsWords where
  states := by simpa using h.states
  arcs := h.arcs
  symbol := h.symbol

lemma storable_ofGraph_of_initial {graph : Graph} (hclosed : graph.Closed)
    (hinitial : graph.initials = [0]) (hfits : (ofGraph graph).FitsWords) :
    (ofGraph graph).Storable := by
  have hpos : 0 < graph.size := hclosed.initial_lt 0 (by simp [hinitial])
  exact storable_ofGraph hclosed hpos (by simpa using hfits.states) hfits.arcs hfits.symbol

/-- All automata can be stored when their numbers fit. -/
lemma Obtained.storable (h : automaton.Obtained) (hfits : automaton.FitsWords) :
    automaton.Storable := by
  induction h with
  | built h =>
      obtain ⟨hclosed, -, hinitials⟩ := h.spec
      exact storable_ofGraph_of_initial hclosed hinitials hfits
  | minimized h =>
      -- The two reversals may start anywhere; what is laid out starts at 0 all the same.
      have hclosed := Graph.closed_determinize (Graph.closed_reverse
        (Graph.closed_determinize (Graph.closed_reverse h.spec.1)))
      exact storable_ofGraph_of_initial hclosed rfl hfits
  | withFinals _ states ih => exact (ih hfits.of_withFinals).withFinals states
  | read h => exact gives_read _ _ _ h

/-- **Stored automata are whole.**  An automaton that has been built, minimized or read, or has been
given other final states, is read back from its bytes, and whatever lies behind them is left.  Of
each strict prefix of the bytes, reading says that the bytes end too early. -/
theorem read_whole (automaton : Automaton) (h : automaton.Obtained) (hfits : automaton.FitsWords) :
    (∀ rest, read (automaton.write ++ rest) = .ok (automaton, rest)) ∧
    ∀ cut, cut <+: automaton.write → cut ≠ automaton.write → read cut = .error .unexpectedEnd := by
  have hread := takesAll_read (h.storable hfits)
  exact ⟨hread.takes, hread.misses⟩

/-- Two arcs for one symbol leave the start, and none the third state.  The cut falls into a
target. -/
theorem read_whole_two_arcs :
    let graph := (((Graph.start.addArc 0 5).2.addArc 0 5).2.link 1 1 0).setFinal 2
    let automaton := (ofGraph graph).withFinals [1, 2]
    let cut : Bytes := [3, 3, 2, 1, 0, 5, 0, 0, 0, 1, 0]
    automaton.Obtained ∧ automaton.FitsWords ∧ cut <+: automaton.write ∧ cut ≠ automaton.write ∧
      read (automaton.write ++ [7]) = .ok (automaton, [7]) ∧ read cut = .error .unexpectedEnd := by
  intro graph automaton cut
  have hbuilt : graph.Built :=
    .setFinal
      (.link (.addArc (.addArc .start (by decide) 5) (by decide) 5) (by decide) (by decide) 0)
      (by decide)
  have hobtained : automaton.Obtained := .withFinals (.built hbuilt) [1, 2]
  have hfits : automaton.FitsWords := ⟨by decide, by decide, by decide⟩
  have hbytes : automaton.write
      = cut ++ [0, 0, 5, 0, 0, 0, 2, 0, 0, 0, 0, 0, 0, 0, 1, 0, 0, 0, 2, 1, 2] := by
    decide +kernel
  have hcut : cut <+: automaton.write := ⟨_, hbytes.symm⟩
  have hne : cut ≠ automaton.write := by
    rw [hbytes]
    decide
  obtain ⟨hread, hmisses⟩ := read_whole automaton hobtained hfits
  exact ⟨hobtained, hfits, hcut, hne, hread [7], hmisses cut hcut hne⟩

end LexicalSelection.Automaton
