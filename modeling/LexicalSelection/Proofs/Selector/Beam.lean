import LexicalSelection.Proofs.Selector.Apart
import LexicalSelection.Proofs.Selector.Lockstep

/-!
# Beams of different widths

A wider beam need not end with a higher score.  A hypothesis that only the wider beam keeps may drop
out another one that would have been better in the end; and what is best for the units up to a
commit may be the wrong thing to have behind them.

When neither can happen the score of a selector is the highest there is, or the highest of those
that the narrower beam can come to.

* `score_le_of_best` — the best decisions of some kind end with the highest score of that kind.
* **`score_le_of_covers`** — a beam ends with a score at least as high as another one, when it
  covers the runs of units, or when it is the wider one and each unit waits alone.
* **`score_not_monotone`** — without such conditions a wider beam can end with a lower score.
-/

namespace LexicalSelection.Window

variable {α : Type} {model model' : Model α}

section Beams

variable [AddCommGroup α] [LinearOrder α]

/-- A fresh selector with the best decisions of some kind ends with the highest score, among all
with decisions of that kind whose models read alike and weigh the same. -/
lemma score_le_of_best (allowed : List Decision → List LexicalUnit → Prop)
    (hmodels : model.ReadsAlike model')
    (hgain : ∀ decisions earlier later,
      model'.gain decisions earlier later = model.gain decisions earlier later)
    (flushSegments : Bool) (input : Input)
    (hbest : ∀ {history window}, Run model history window [] →
      stream history window [] = model.readableUnits input →
        Best allowed model history (window.undecided ++ []))
    (hallowed : ∀ {history window}, Run model' history window [] →
      stream history window [] = model.readableUnits input →
        allowed history (window.undecided ++ [])) :
    (Window.initial.processInput model' flushSegments input).window.score
      ≤ (Window.initial.processInput model flushSegments input).window.score := by
  obtain ⟨history, history', hstands, hstands', hunits, hundecided, hreadable⟩ :=
    exists_histories hmodels flushSegments input
  have hscore := (reckoned_of_run (hstands [])).score
  have hscore' := (reckoned_of_run (hstands' [])).score
  have hstream : stream history (Window.initial.processInput model flushSegments input).window []
      = model.readableUnits input := by
    rw [stream, List.append_nil, hreadable]
  have hstream' : stream history' (Window.initial.processInput model' flushSegments input).window []
      = model.readableUnits input := by
    rw [stream, List.append_nil, hunits, hundecided, hreadable]
  have hleading := hbest (hstands []) hstream
  have hkind := hallowed (hstands' []) hstream'
  rw [List.append_nil] at hleading hkind
  calc (Window.initial.processInput model' flushSegments input).window.score
      = model.gain history' []
          (Window.initial.processInput model flushSegments input).window.undecided := by
        rw [← hundecided, ← hgain]
        exact hscore'
    _ ≤ model.gain history []
          (Window.initial.processInput model flushSegments input).window.undecided :=
        hleading history' ⟨hunits, valid_of_run (hstands' [])⟩ (hundecided ▸ hkind)
    _ = (Window.initial.processInput model flushSegments input).window.score := hscore.symm

variable [IsOrderedAddMonoid α]

/-- **When a beam is no worse than another one.**  Take a model, an input and two beams, where what
the units behind a commit gain does not depend on the choices before it; this is so whenever no more
than one unit before another one is looked at.  Let the second beam keep a hypothesis for each
choice of targets for units that wait together.  Or let it be at least as wide as the first one, and
no two units that leave a choice stand next to each other.  Then a fresh selector with the second
beam ends with a score at least as high as one with the first beam.  When nothing before a unit is
looked at, this is so for any two beams, and so their scores are equal. -/
theorem score_le_of_covers (model : Model α) (flushSegments : Bool) (bytes : Bytes)
    (beam wide : Nat)
    (hsearch : model.lookbehind = 0 ∨ CoversRuns wide (model.readableUnits (.ofBytes bytes)) ∨
      0 < beam ∧ beam ≤ wide ∧ Apart (model.readableUnits (.ofBytes bytes)))
    (hsealed : model.lookbehind ≤ 1 ∨ model.Sealed (model.readableUnits (.ofBytes bytes))) :
    (Window.initial.process { model with beam } flushSegments bytes).window.score
      ≤ (Window.initial.process { model with beam := wide } flushSegments bytes).window.score := by
  have hmodels : ∀ beam, model.ReadsAlike { model with beam } := fun _ => ⟨fun _ => rfl, rfl⟩
  have hbeams : ({ model with beam := wide } : Model α).ReadsAlike { model with beam } :=
    ⟨fun _ => rfl, rfl⟩
  have hreadable := (hmodels wide).readableUnits_eq (.ofBytes bytes)
  have hsealedWide : ({ model with beam := wide } : Model α).Sealed
      (model.readableUnits (.ofBytes bytes)) := by
    rcases hsealed with hlookbehind | hsealed
    · exact Model.sealed_of_lookbehind hlookbehind
    · exact hsealed.withBeam wide
  have hgain : ∀ decisions earlier later,
      ({ model with beam } : Model α).gain decisions earlier later
      = ({ model with beam := wide } : Model α).gain decisions earlier later := by
    intro decisions earlier later
    rw [Model.gain_withBeam model beam, Model.gain_withBeam model wide]
  have hfull : (model.lookbehind = 0 ∨ CoversRuns wide (model.readableUnits (.ofBytes bytes))) ∨
      0 < beam ∧ beam ≤ wide ∧ Apart (model.readableUnits (.ofBytes bytes)) := or_assoc.2 hsearch
  rcases hfull with hfull | ⟨hbeam, hle, hapart⟩
  · refine score_le_of_best Everything hbeams hgain flushSegments _ (fun hrun hstream => ?_)
      fun _ _ => trivial
    rw [hreadable] at hstream
    exact best_of_run hrun [] (hstream ▸ hfull) (hstream ▸ hsealedWide)
  · refine score_le_of_best (Model.Sifted { model with beam := wide }) hbeams hgain flushSegments _
      (fun hrun hstream => ?_) fun hrun hstream => ?_
    · rw [hreadable] at hstream
      exact best_of_apart hrun (hstream ▸ hapart) (hstream ▸ hsealedWide)
    · rw [hreadable] at hstream
      exact (sifted_of_run hrun (hstream ▸ hapart)).of_le hbeam hle

/-- Two models, one for either way to be no worse.  In the first case two of the second targets in a
row are liked better than two of the first ones, each of which is liked a little.  A beam of one
hypothesis misses this; there are four choices, and a beam of four finds the best one.  In the
second case one unit waits alone: a beam of one keeps its first target, a beam of two also the
second one, which counts for more with the unit behind, and neither the third one, which would have
been the best. -/
theorem score_le_of_covers_two_units :
    (let model : Model Int := Model.setWeight (.of ⟨0, 2⟩ ⟨-1, 2⟩) 10 <|
        Model.setWeight (.unary ⟨0, 1⟩) 1 <| Model.rebuildMatcher
          { lookbehind := 1, features := [{ name := [] },
              { name := ['F'], patterns := ["tl/f".toList] },
              { name := ['G'], patterns := ["tl/g".toList] }] }
      let text := "^a/f/g$ ^b/f/g$ ^c/c$".toList
      let narrow := Window.initial.process { model with beam := 1 } false (Text.utf8 text)
      let wide := Window.initial.process { model with beam := 4 } false (Text.utf8 text)
      choiceCount ((model.readableUnits (.ofBytes (Text.utf8 text))).filter LexicalUnit.ambiguous)
          = 4 ∧
        narrow.window.score = 2 ∧ wide.window.score = 10 ∧
        narrow.window.score ≤ wide.window.score) ∧
    (let model : Model Int := Model.setWeight (.of ⟨0, 4⟩ ⟨-1, 3⟩) 9 <|
        Model.setWeight (.of ⟨0, 4⟩ ⟨-1, 2⟩) 5 <| Model.setWeight (.unary ⟨0, 2⟩) 1 <|
          Model.setWeight (.unary ⟨0, 1⟩) 2 <| Model.rebuildMatcher
            { lookbehind := 1, features := [{ name := [] },
                { name := ['X'], patterns := ["tl/x".toList] },
                { name := ['Y'], patterns := ["tl/y".toList] },
                { name := ['Z'], patterns := ["tl/z".toList] },
                { name := ['B'], patterns := ["tl/b".toList] }] }
      let text := "^a/x/y/z$ ^b/b$".toList
      let narrow := Window.initial.process { model with beam := 1 } false (Text.utf8 text)
      let wide := Window.initial.process { model with beam := 2 } false (Text.utf8 text)
      Apart (model.readableUnits (.ofBytes (Text.utf8 text))) ∧
        narrow.window.score = 2 ∧ wide.window.score = 6 ∧
        narrow.window.score ≤ wide.window.score) := by
  constructor
  · intro model text narrow wide
    have hchoices : choiceCount
        ((model.readableUnits (.ofBytes (Text.utf8 text))).filter LexicalUnit.ambiguous) = 4 := by
      decide +kernel
    exact ⟨hchoices, by decide +kernel, by decide +kernel,
      score_le_of_covers model false (Text.utf8 text) 1 4
        (Or.inr (Or.inl (coversRuns_of_choices hchoices.le))) (Or.inl le_rfl)⟩
  · intro model text narrow wide
    have hapart : Apart (model.readableUnits (.ofBytes (Text.utf8 text))) := by decide +kernel
    exact ⟨hapart, by decide +kernel, by decide +kernel,
      score_le_of_covers model false (Text.utf8 text) 1 2
        (Or.inr (Or.inr ⟨by decide, by decide, hapart⟩)) (Or.inl le_rfl)⟩

/-- **A wider beam can end with a lower score**, and each of the two conditions is needed.  In the
first case the wider beam drops nothing, but two units before another one are looked at: it takes
the target of the first unit that is better up to the commit, and a beam of one hypothesis has the
other target, which counts for more behind the commit.  In the second case only one unit before
another one is looked at, but two units wait in one run and the wider beam does not cover it: what
only a beam of two keeps takes the place of the hypothesis that would have been the best in the
end. -/
theorem score_not_monotone :
    (let model : Model Int := Model.setWeight (.of ⟨0, 4⟩ ⟨-2, 1⟩) 10 <|
        Model.setWeight (.of ⟨0, 3⟩ ⟨-1, 2⟩) 5 <| Model.setWeight (.unary ⟨0, 1⟩) 1 <|
          Model.rebuildMatcher { lookbehind := 2, features := [{ name := [] },
            { name := ['X'], patterns := ["tl/x".toList] },
            { name := ['Y'], patterns := ["tl/y".toList] },
            { name := ['B'], patterns := ["tl/b".toList] },
            { name := ['C'], patterns := ["tl/c".toList] }] }
      let text := "^a/x/y$ ^b/b$ ^c/c$".toList
      let narrow := Window.initial.process { model with beam := 1 } false (Text.utf8 text)
      let wide := Window.initial.process { model with beam := 0 } false (Text.utf8 text)
      narrow.window.score = 11 ∧ wide.window.score = 5) ∧
    (let model : Model Int := Model.setWeight (.of ⟨0, 5⟩ ⟨-1, 3⟩) 10 <|
        Model.setWeight (.of ⟨0, 4⟩ ⟨-1, 2⟩) 5 <| Model.setWeight (.unary ⟨0, 1⟩) 1 <|
          Model.rebuildMatcher { lookbehind := 1, features := [{ name := [] },
            { name := ['A'], patterns := ["tl/a".toList] },
            { name := ['B'], patterns := ["tl/b".toList] },
            { name := ['X'], patterns := ["tl/x".toList] },
            { name := ['Y'], patterns := ["tl/y".toList, "tl/z".toList] },
            { name := ['C'], patterns := ["tl/c".toList] }] }
      let text := "^u/a/b$ ^v/x/y/z$ ^w/c$".toList
      let narrow := Window.initial.process { model with beam := 1 } false (Text.utf8 text)
      let wide := Window.initial.process { model with beam := 2 } false (Text.utf8 text)
      narrow.window.score = 11 ∧ wide.window.score = 5) := by
  exact ⟨⟨by decide +kernel, by decide +kernel⟩, by decide +kernel, by decide +kernel⟩

end Beams

end LexicalSelection.Window
