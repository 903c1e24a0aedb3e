import LexicalSelection.Proofs.Selector.Run
import LexicalSelection.Training.Corpus

/-!
# What a loaded corpus says of its raw stream

The examples of a corpus are the units of the first segment of the raw stream, in order, each with
the number of a target that it has.

* `Example.decision` — the decision that is right for an example.
* `Corpus.OneSentence` — all examples of a corpus belong to one sentence.
* **`segment_of_load`** — the units of the examples, and the end of the segment, are what the model
  reads from the raw stream.
-/

namespace LexicalSelection

/-- The unit with the right target. -/
def Example.decision (ex : Example) : Decision := (ex.unit, ex.gold)

lemma Example.valid_decision {ex : Example} (h : ex.gold < ex.unit.targets.length) :
    ex.decision.Valid :=
  h.trans_le (Nat.le_max_right _ _)

namespace Corpus

/-- All examples belong to one sentence.  A line break in front of the first unit of a text makes a
sentence without examples before it. -/
def OneSentence (corpus : Corpus) (sentence : Sentence) : Prop :=
  corpus = [sentence] ∨ corpus = [[], sentence]

/-- A corpus of one sentence has the examples of that sentence. -/
lemma OneSentence.flatten_eq {corpus : Corpus} {sentence : Sentence}
    (h : corpus.OneSentence sentence) : corpus.flatten = sentence := by
  rcases h with rfl | rfl <;> simp

variable {α : Type} {model : Model α} {raw gold : LexicalUnit} {new : Example}

/-- An example is for the raw unit, and its right target is there. -/
lemma spec_of_exampleOf (h : exampleOf raw gold = .ok new) :
    new.unit = raw ∧ new.gold < new.unit.targets.length := by
  unfold exampleOf at h
  split at h
  · cases h
  · rename_i hne
    split at h
    · cases h
      exact ⟨rfl, List.length_pos_iff.2 hne⟩
    · split at h
      · split at h
        · rename_i index hindex
          cases h
          obtain ⟨hlt, -⟩ := List.idxOf?_eq_some_iff.1 hindex
          exact ⟨rfl, by simpa using hlt⟩
        · cases h
      · cases h

lemma map_eq_ok {β γ ε : Type} {f : β → γ} {found : Except ε β} {value : γ} :
    found.map f = .ok value ↔ ∃ a, found = .ok a ∧ f a = value := by
  cases found with
  | error problem => simp [Except.map]
  | ok a => simp [Except.map]

/-- A new example comes first, whether it starts a sentence or not. -/
lemma flatten_consExample (startsSentence : Bool) (new : Example)
    (sentences : Sentence × List Sentence) :
    (consExample startsSentence new sentences).1
        ++ (consExample startsSentence new sentences).2.flatten
      = new :: (sentences.1 ++ sentences.2.flatten) := by
  rw [consExample]
  split <;> simp

/-- The examples that are loaded are the units of one raw segment, each with one of its targets. -/
lemma segment_of_loadFrom {line count : Nat} {raw gold : Input}
    {sentences : Sentence × List Sentence}
    (h : loadFrom model line count raw gold = .ok sentences) :
    ∃ last behind, last.isEnd = true ∧
      model.Segment raw ((sentences.1 ++ sentences.2.flatten).map Example.unit ++ [last]) behind ∧
      ∀ ex ∈ sentences.1 ++ sentences.2.flatten, ex.gold < ex.unit.targets.length := by
  fun_induction loadFrom model line count raw gold generalizing sentences with
  | case3 =>
      rename_i rawUnit rawRest hread _ _ _ hend _
      cases h
      exact ⟨rawUnit, rawRest, hend, .ending hread hend, by simp⟩
  | case8 =>
      rename_i hread _ _ _ hopen _ _ startsSentence _ _ new hnew _ ih
      obtain ⟨hunit, hgold⟩ := spec_of_exampleOf hnew
      obtain ⟨others, hothers, rfl⟩ := map_eq_ok.1 h
      obtain ⟨last, behind, hend, hsegment, hexamples⟩ := ih hothers
      rw [flatten_consExample]
      refine ⟨last, behind, hend, ?_, List.forall_mem_cons.2 ⟨hgold, hexamples⟩⟩
      rw [List.map_cons, List.cons_append, hunit]
      exact .unit hread (by simpa using hopen) hsegment
  | _ => cases h

/-- **The units of the examples are those of the first segment**, with its end behind them, and each
right target is there. -/
lemma segment_of_load {raw gold : Bytes} {corpus : Corpus} (h : load model raw gold = .ok corpus) :
    ∃ last behind, last.isEnd = true ∧
      model.Segment (.ofBytes raw) (corpus.flatten.map Example.unit ++ [last]) behind ∧
      ∀ ex ∈ corpus.flatten, ex.gold < ex.unit.targets.length := by
  rw [load] at h
  cases hfrom : loadFrom model 1 0 (.ofBytes raw) (.ofBytes gold) with
  | error problem =>
      rw [hfrom] at h
      cases h
  | ok sentences =>
      rw [hfrom] at h
      obtain rfl : sentences.1 :: sentences.2 = corpus := Except.ok.inj h
      exact segment_of_loadFrom hfrom

end Corpus

end LexicalSelection
