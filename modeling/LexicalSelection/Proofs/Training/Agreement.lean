import LexicalSelection.Proofs.Selector.Course
import LexicalSelection.Proofs.Selector.Score
import LexicalSelection.Proofs.Training.Averaging
import LexicalSelection.Proofs.Training.Loading
import Mathlib.Algebra.Order.Ring.Int

/-!
# Training and selecting see the same features

The trainer finds the features around a unit in its sentence, which it has in full; the selector
finds them in its window, where the units before have been cut to their chosen targets or have only
hypotheses, and the units behind come as they are read.  Both are the evidence for a decision.

* `Model.evidence_congr` — evidence tells the units before by their chosen targets alone.
* **`activeLocations_eq_evidence`** — what the trainer judges a target by is the evidence for it
  behind the right decisions.
* **`refill_agrees`** — the selector takes up each unit with the same features, when the decisions
  before it are right.
* **`activeLocations_agree`** — so a pass over a corpus and a selector that reads its raw stream
  judge each target of a unit by the same features.
-/

namespace LexicalSelection

open LexicalUnit (Open)

/-! ## Evidence -/

section Evidence

variable {α : Type} {model : Model α}

/-- The features of a decision are those of the unit that is left with its chosen target. -/
lemma Decision.locations_eq (decision : Decision) (position : Int) :
    decision.locations position = (Window.keepChoice decision).sourceLocations position
      ++ (Window.keepChoice decision).targetLocations position 0 := by
  rw [Window.targetLocations_keepChoice]
  rfl

/-- Of the decisions before only the units count that they leave. -/
lemma Model.evidence_congr {earlier earlier' : List Decision}
    (h : earlier.map Window.keepChoice = earlier'.map Window.keepChoice) (decision : Decision)
    (later : List LexicalUnit) :
    model.evidence earlier decision later = model.evidence earlier' decision later := by
  have hback : ∀ decisions : List Decision,
      ((decisions.take model.lookbehind).zipIdx 1).flatMap
          (fun entry => entry.1.locations (-entry.2))
        = (((decisions.map Window.keepChoice).take model.lookbehind).zipIdx 1).flatMap
          (fun entry =>
            entry.1.sourceLocations (-entry.2) ++ entry.1.targetLocations (-entry.2) 0) := by
    intro decisions
    simp only [Decision.locations_eq, ← List.map_take, List.zipIdx_map, List.flatMap_map,
      Prod.map_fst, Prod.map_snd, id_eq]
  rw [Window.evidence_eq, Window.evidence_eq, hback, hback, h]

end Evidence

namespace Perceptron

variable {α : Type} {model : Model α} {before : List Example} {behind : Sentence}
  {unit last : LexicalUnit} {units : List LexicalUnit} {distance count : Nat}

/-! ## What the trainer sees -/

lemma goldBefore_eq (h : ∀ ex ∈ before, ex.decision.Valid) :
    goldBefore distance before = ((before.map Example.decision).zipIdx distance).flatMap
      fun entry => entry.1.targetLocations (-entry.2) := by
  induction before generalizing distance with
  | nil => rfl
  | cons ex before ih =>
      obtain ⟨hex, hbefore⟩ := List.forall_mem_cons.1 h
      have hlocations : ex.unit.targetLocations (-distance) ex.gold
          = ex.decision.targetLocations (-distance) := Window.targetLocations_of_valid hex _
      rw [goldBefore, ih hbefore, hlocations, List.map_cons, List.zipIdx_cons, List.flatMap_cons]

/-- The end of a segment has no features. -/
lemma sourcesFrom_take_concat (hend : last.isEnd = true) :
    LexicalUnit.sourcesFrom distance ((units ++ [last]).take count)
      = LexicalUnit.sourcesFrom distance (units.take count) := by
  induction units generalizing distance count with
  | nil =>
      have hsource : last.source = none := Option.isNone_iff_eq_none.1 hend
      cases count <;> simp [LexicalUnit.sourcesFrom, LexicalUnit.sourceLocations, hsource]
  | cons unit units ih =>
      cases count with
      | zero => rfl
      | succ count => simp [LexicalUnit.sourcesFrom, ih]

/-- **What the trainer judges a target by is the evidence for the decision**, behind the right
decisions and in front of the rest of the sentence. -/
lemma activeLocations_eq_evidence {reading : Nat} {target : Reading}
    (hvalid : ∀ ex ∈ before, ex.decision.Valid) (hopen : Open (unit :: behind.map Example.unit))
    (hend : last.isEnd = true) (htarget : unit.targets[reading]? = some target) :
    activeLocations model before unit behind target
      = model.evidence (before.map Example.decision) (unit, reading)
        (behind.map Example.unit ++ [last]) := by
  have hthrough : LexicalUnit.throughEnd (unit :: (behind.map Example.unit ++ [last]))
      = unit :: (behind.map Example.unit ++ [last]) := by
    rw [← List.cons_append, Window.throughEnd_append_of_open hopen]
    simp [LexicalUnit.throughEnd, hend]
  have hsources : LexicalUnit.sourcesBefore 1 ((before.take model.lookbehind).map Example.unit)
      = (((before.map Example.decision).take model.lookbehind).zipIdx 1).flatMap
        fun entry => entry.1.1.sourceLocations (-entry.2) := by
    rw [← List.map_take]
    refine Window.sourcesBefore_eq ?_
    rw [List.map_map, List.map_map]
    rfl
  have hgold : goldBefore 1 (before.take model.lookbehind)
      = (((before.map Example.decision).take model.lookbehind).zipIdx 1).flatMap
        fun entry => entry.1.targetLocations (-entry.2) := by
    rw [← List.map_take]
    exact goldBefore_eq fun ex hex => hvalid ex (List.mem_of_mem_take hex)
  have hbehind : LexicalUnit.sourcesFrom 0 (unit :: (behind.take model.lookahead).map Example.unit)
      = LexicalUnit.sourcesFrom 0
        ((unit :: (behind.map Example.unit ++ [last])).take (model.lookahead + 1)) := by
    rw [List.take_succ_cons, LexicalUnit.sourcesFrom, LexicalUnit.sourcesFrom,
      sourcesFrom_take_concat hend, List.map_take]
  have hchosen : Decision.targetLocations 0 (unit, reading) = target.locations 0 := by
    simp [Decision.targetLocations, Decision.target, htarget]
  rw [activeLocations, context, hsources, hgold, hbehind, Window.evidence_eq, hthrough, hchosen]
  refine Ascending.ofList_congr fun location => ?_
  simp only [List.mem_append, Window.mem_locations_before]
  tauto

end Perceptron

lemma Corpus.OneSentence.instancesOf_eq {corpus : Corpus} {sentence : Sentence}
    (h : corpus.OneSentence sentence) :
    Perceptron.instancesOf corpus = Perceptron.sentenceInstances [] sentence := by
  rcases h with rfl | rfl <;> simp [Perceptron.instancesOf, Perceptron.sentenceInstances]

/-! ## What the selector sees -/

namespace Window

variable {α : Type} {model : Model α} {window window' : Window α} {text input rest behind' : Input}
  {history : List Decision} {unit last : LexicalUnit} {ahead : List LexicalUnit}
  {before : List Example} {current : Example} {behind : Sentence} {place : Nat}

lemma open_of_segment {units : List LexicalUnit} (h : model.Segment text (units ++ [last]) rest) :
    Open units := by
  obtain ⟨front, end', heq, hopen, -⟩ := h.whole
  obtain ⟨rfl, -⟩ := List.append_inj' heq rfl
  exact hopen

variable [Zero α] [Add α] [Sub α] [Ord α]

/-- **The selector takes up each unit with the features that the trainer sees**, when the decisions
before it are right: those that have been written, and those of the hypothesis that is continued. -/
lemma refill_agrees
    (hsegment : model.Segment text
      ((before.reverse ++ current :: behind).map Example.unit ++ [last]) behind')
    (hend : last.isEnd = true) (hvalid : ∀ ex ∈ before, ex.decision.Valid)
    (hcourse : Course model text history window input)
    (hrefill : window.refill model input = (window', .ok () rest))
    (hahead : window'.ahead = unit :: ahead) (hplace : place < (window'.layers.headD []).length)
    (hright : (chain place window'.pending window'.layers ++ history).map keepChoice
      = (before.map Example.decision).map keepChoice) :
    unit = current.unit ∧ ∀ reading target, current.unit.targets[reading]? = some target →
      window'.activeLocations model unit reading place
        = Perceptron.activeLocations model before current.unit behind target := by
  have hrefilled := refilled_of_course hcourse hrefill
  have hlinked := hrefilled.underway.linked
  have hne : window'.ahead ≠ [] := by simp [hahead]
  -- The units before are as many as the decisions before, so the next unit is the current one.
  obtain ⟨unread, -, hunits⟩ := (divided_of_course hsegment hcourse).refilled hcourse hrefill
  have hlength : window'.pending.length + history.length = before.length := by
    have hchain := congrArg List.length (map_fst_chain hlinked hplace)
    have hdecisions := congrArg List.length hright
    simp only [List.length_map, List.length_append] at hchain hdecisions
    omega
  have hbehind : unit :: (ahead ++ unread)
      = current.unit :: (behind.map Example.unit ++ [last]) := by
    rw [undecided, hahead, List.map_append, List.append_assoc, List.append_assoc,
      ← List.append_assoc _ window'.pending.reverse] at hunits
    refine (List.append_inj hunits ?_).2
    simp only [List.length_append, List.length_reverse, List.length_map]
    omega
  obtain ⟨rfl, hlater⟩ := List.cons.inj hbehind
  refine ⟨rfl, fun reading target htarget => ?_⟩
  have hpast := hrefilled.past_eq.trans (past_of_run (run_of_course hcourse))
  have hsettled := hrefilled.settled hne
  have hthrough := hrefilled.underway.throughEnd_ahead hne
  rw [hahead] at hsettled hthrough
  have hopen : Open (current.unit :: behind.map Example.unit) := fun other hother =>
    open_of_segment hsegment other (by simpa using Or.inr hother)
  have hreading : Decision.Valid (current.unit, reading) :=
    (List.getElem?_eq_some_iff.1 htarget).1.trans_le (Nat.le_max_right _ _)
  rw [activeLocations_eq hlinked hplace hpast (hthrough.trans hahead.symm) hreading,
    ← Model.evidence_later hsettled unread, hlater,
    Perceptron.activeLocations_eq_evidence hvalid hopen hend htarget]
  exact Model.evidence_congr hright _ _

/-- **Training and selecting see the same features.**  A corpus of one sentence has been loaded, and
a fresh selector reads its raw stream.  It comes to an ambiguous unit behind right decisions, those
that have been written and those of the hypothesis at a place of the last layer; it need not prefer
them.  Then it judges each target of the unit, when it continues that hypothesis, by the features
that a pass over the corpus judges the target by. -/
theorem activeLocations_agree {raw gold : Bytes} {corpus : Corpus} {sentence : Sentence}
    (hload : Corpus.load model raw gold = .ok corpus) (hone : corpus.OneSentence sentence)
    {inst : Perceptron.Instance} (hinst : inst ∈ Perceptron.instancesOf corpus)
    (hcourse : Course model (.ofBytes raw) history window input)
    (hrefill : window.refill model input = (window', .ok () rest))
    (hahead : window'.ahead = unit :: ahead) (hplace : place < (window'.layers.headD []).length)
    (hright : (chain place window'.pending window'.layers ++ history).map keepChoice
      = (inst.before.map Example.decision).map keepChoice) :
    unit = inst.current.unit ∧ ∀ reading target, inst.current.unit.targets[reading]? = some target →
      window'.activeLocations model unit reading place
        = Perceptron.activeLocations model inst.before inst.current.unit inst.behind target := by
  obtain ⟨last, behind, hend, hsegment, hgold⟩ := Corpus.segment_of_load hload
  rw [hone.flatten_eq] at hsegment hgold
  rw [hone.instancesOf_eq] at hinst
  obtain ⟨-, front, hbefore, rfl⟩ := Perceptron.mem_sentenceInstances.1 hinst
  rw [List.append_nil] at hbefore
  have hfront : front = inst.before.reverse := by rw [hbefore, List.reverse_reverse]
  rw [hfront] at hsegment hgold
  have hvalid : ∀ ex ∈ inst.before, ex.decision.Valid := fun ex hex =>
    Example.valid_decision (hgold ex (List.mem_append_left _ (List.mem_reverse.2 hex)))
  exact refill_agrees hsegment hend hvalid hcourse hrefill hahead hplace hright

/-- The third unit of a sentence.  The first one has been written, and the second one waits: its
right target `c`, which has a feature of its own, is chosen by the second hypothesis. -/
theorem activeLocations_agree_third_unit :
    let model : Model Int := Model.rebuildMatcher
      { lookbehind := 2, lookahead := 1
        features := [{ name := [] }, { name := ['C'], patterns := [['t', 'l', '/', 'c']] }] }
    let reading : Char → Reading := fun c => ⟨[.plain c], if c = 'c' then [0, 1] else [0]⟩
    let third : LexicalUnit := ⟨[' '], some (reading 'd'), [reading 'e', reading 'f']⟩
    let before : List Example :=
      [⟨⟨[' '], some (reading 'a'), [reading 'b', reading 'c']⟩, 1⟩,
        ⟨⟨[], some (reading 'x'), [reading 'y']⟩, 0⟩]
    let behind : Sentence := [⟨⟨[' '], some (reading 'g'), [reading 'h']⟩, 0⟩]
    let raw := Text.utf8 "^x/y$ ^a/b/c$ ^d/e/f$ ^g/h$".toList
    let first := (Window.initial.refill model (.ofBytes raw)).1
    let second := ((first.step model).1.refill model (.ofText " ^d/e/f$ ^g/h$".toList)).1
    let window := ((second.step model).1.refill model (.ofText " ^g/h$".toList)).1
    Corpus.load model raw (Text.utf8 "^x/y$ ^a/c$ ^d/e$ ^g/h$".toList)
        = .ok [before.reverse ++ ⟨third, 0⟩ :: behind] ∧
      window.ahead.head? = some third ∧
      window.activeLocations model third 1 1
        = Perceptron.activeLocations model before third behind (reading 'f') ∧
      window.activeLocations model third 1 1
        = [⟨-2, 0⟩, ⟨-1, 0⟩, ⟨-1, 1⟩, ⟨0, 0⟩, ⟨1, 0⟩] := by
  intro model reading third before behind raw first second window
  have hload : Corpus.load model raw (Text.utf8 "^x/y$ ^a/c$ ^d/e$ ^g/h$".toList)
      = .ok [before.reverse ++ ⟨third, 0⟩ :: behind] := by decide +kernel
  have hinst : ⟨before, ⟨third, 0⟩, behind⟩
      ∈ Perceptron.instancesOf [before.reverse ++ ⟨third, 0⟩ :: behind] :=
    List.mem_flatMap.2 ⟨_, List.mem_singleton_self _,
      Perceptron.mem_sentenceInstances.2 ⟨rfl, before.reverse, rfl, rfl⟩⟩
  have hfirst : Window.initial.refill model (.ofBytes raw)
      = (first, .ok () (.ofText " ^d/e/f$ ^g/h$".toList)) := Prod.ext rfl (by decide +kernel)
  have hsecond : (first.step model).1.refill model (.ofText " ^d/e/f$ ^g/h$".toList)
      = (second, .ok () (.ofText " ^g/h$".toList)) := Prod.ext rfl (by decide +kernel)
  have hwindow : (second.step model).1.refill model (.ofText " ^g/h$".toList)
      = (window, .ok () []) := Prod.ext rfl (by decide +kernel)
  have hcourse := (Course.start.step hfirst (by decide +kernel)).step hsecond (by decide +kernel)
  have hahead : window.ahead = [third, ⟨[' '], some (reading 'g'), [reading 'h']⟩] := by
    decide +kernel
  have hplace : 1 < (window.layers.headD []).length := by decide +kernel
  have hright : (chain 1 window.pending window.layers
      ++ (second.decided model ++ (first.decided model ++ []))).map keepChoice
        = (before.map Example.decision).map keepChoice := by decide +kernel
  obtain ⟨-, hagree⟩ :=
    activeLocations_agree hload (Or.inl rfl) hinst hcourse hwindow hahead hplace hright
  exact ⟨hload, by rw [hahead]; rfl, hagree 1 (reading 'f') rfl, by decide +kernel⟩

end Window

end LexicalSelection
