import LexicalSelection.Proofs.Selector.Copying
import LexicalSelection.Proofs.Selector.Greedy
import LexicalSelection.Proofs.Training.Agreement
import LexicalSelection.Proofs.Training.Faultless

/-!
# Selecting what was trained without mistakes

A pass over a sentence scores each unit behind right decisions; a selector scores it behind its own.
With a beam of one these are the same, unit by unit, when the pass makes no mistake: the first of
the best targets is the right one, and the next unit is scored behind right decisions again.

* `rightDecisions` — the right decisions for the units of a sentence and the end of its segment.
* **`nextLayer_of_right`** — behind right decisions the right one is made.
* **`right_of_course`** — so all decisions are right, at any time.
* **`process_of_no_mistakes`** — a model that makes no mistake in a pass is left as it is, and
  selects the right targets in the raw text.
-/

namespace LexicalSelection

/-- The right decisions for the units of a sentence and for the end of its segment. -/
def rightDecisions (sentence : Sentence) (last : LexicalUnit) : List Decision :=
  sentence.map Example.decision ++ [(last, 0)]

/-- A part of a text is the unit of an example, and of its targets the right one is kept. -/
def Example.RightPart (ex : Example) (part : Part) : Prop :=
  ∃ closed target, ex.unit.targets[ex.gold]? = some target ∧ part = .word ex.unit closed [target]

lemma Example.rightPart_of_makes {ex : Example} {part : Part}
    (hgold : ex.gold < ex.unit.targets.length) (hopen : ex.unit.isEnd = false)
    (h : ex.decision.Makes part) : ex.RightPart part := by
  have hget := List.getElem?_eq_getElem hgold
  obtain ⟨closed, rfl⟩ : ∃ closed, part
      = .word ex.unit closed (Window.keepChoice ex.decision).targets := by
    simpa [Decision.Makes, decision, hopen] using h
  refine ⟨closed, _, hget, ?_⟩
  simp [Window.keepChoice, LexicalUnit.keepOnly, decision, hget]

/-- What right decisions make are the units of the sentence, each with its right target, and the
blank behind them. -/
lemma exists_rightParts {sentence : Sentence} {last : LexicalUnit} {parts : List Part}
    (hend : last.isEnd = true) (hgold : ∀ ex ∈ sentence, ex.gold < ex.unit.targets.length)
    (hopen : LexicalUnit.Open (sentence.map Example.unit))
    (h : List.Forall₂ Decision.Makes (rightDecisions sentence last) parts) :
    ∃ words, parts = words ++ [.blank last.blank] ∧
      List.Forall₂ Example.RightPart sentence words := by
  induction sentence generalizing parts with
  | nil =>
      obtain ⟨part, others, hmakes, hothers, rfl⟩ := List.forall₂_cons_left_iff.1 h
      obtain rfl := List.forall₂_nil_left_iff.1 hothers
      obtain rfl : part = .blank last.blank := by simpa [Decision.Makes, hend] using hmakes
      exact ⟨[], rfl, .nil⟩
  | cons ex sentence ih =>
      obtain ⟨part, others, hmakes, hothers, rfl⟩ := List.forall₂_cons_left_iff.1 h
      obtain ⟨hex, hgold⟩ := List.forall_mem_cons.1 hgold
      obtain ⟨hunit, hopen⟩ := LexicalUnit.open_cons.1 hopen
      obtain ⟨words, rfl, hwords⟩ := ih hgold hopen hothers
      exact ⟨part :: words, rfl, .cons (Example.rightPart_of_makes hex hunit hmakes) hwords⟩

namespace Window

variable {α : Type} {model : Model α} {window window' : Window α}
  {text input rest behind : Input} {history todo : List Decision} {sentence : Sentence}
  {unit last : LexicalUnit} {ahead : List LexicalUnit} {decision : Decision}

lemma map_fst_rightDecisions (sentence : Sentence) (last : LexicalUnit) :
    (rightDecisions sentence last).map Prod.fst = sentence.map Example.unit ++ [last] := by
  simp only [rightDecisions, List.map_append, List.map_map]
  rfl

lemma valid_rightDecisions (hgold : ∀ ex ∈ sentence, ex.gold < ex.unit.targets.length) :
    ∀ decision ∈ rightDecisions sentence last, decision.Valid := by
  refine List.forall_mem_append.2 ⟨List.forall_mem_map.2 fun ex hex => ?_, ?_⟩
  · exact Example.valid_decision (hgold ex hex)
  · simp [Decision.Valid]

section Course

variable [Zero α] [Add α] [Sub α] [Ord α]

/-- Behind the first of the right decisions the next one is for the unit that is taken up. -/
lemma exists_next_right
    (hsegment : model.Segment text (sentence.map Example.unit ++ [last]) behind)
    (hcourse : Course model text history window input)
    (hrefill : window.refill model input = (window', .ok () rest))
    (hahead : window'.ahead = unit :: ahead)
    (hdone : (chain 0 window'.pending window'.layers ++ history).reverse
      <+: rightDecisions sentence last) :
    ∃ decision todo, decision.1 = unit ∧ rightDecisions sentence last
      = (chain 0 window'.pending window'.layers ++ history).reverse ++ decision :: todo := by
  have hlinked := (refilled_of_course hcourse hrefill).underway.linked
  obtain ⟨todo, htodo⟩ := hdone
  obtain ⟨unread, -, hunits⟩ := (divided_of_course hsegment hcourse).refilled hcourse hrefill
  have hmap : todo.map Prod.fst = unit :: (ahead ++ unread) := by
    rw [← map_fst_rightDecisions, ← htodo, List.map_append, List.map_reverse, List.map_append,
      map_fst_chain hlinked hlinked.length_pos, undecided, hahead] at hunits
    simpa using hunits.symm
  obtain ⟨decision, todo, rfl, hdecision, -⟩ := List.map_eq_cons_iff.1 hmap
  exact ⟨decision, todo, hdecision, htodo.symm⟩

end Course

/-! ## One decision -/

section Right

open Perceptron (Instance IsFirstMax sentenceInstances)

/-- A right decision between several targets is that of an example, since the end of a segment has
no targets. -/
lemma exists_instance_of_right {done : List Decision} (hend : last.targets = [])
    (hambiguous : decision.1.ambiguous = true)
    (h : rightDecisions sentence last = done.reverse ++ decision :: todo) :
    ∃ inst ∈ sentenceInstances [] sentence, inst.current.decision = decision ∧
      inst.before.map Example.decision = done ∧
      sentence = inst.before.reverse ++ inst.current :: inst.behind := by
  rcases List.eq_nil_or_concat todo with rfl | ⟨todo, final, rfl⟩
  · obtain ⟨-, hlast⟩ := List.append_inj' h rfl
    obtain rfl : (last, 0) = decision := List.singleton_inj.1 hlast
    simp [LexicalUnit.ambiguous, hend] at hambiguous
  · rw [List.concat_eq_append, ← List.cons_append, ← List.append_assoc, rightDecisions] at h
    obtain ⟨front, others, rfl, hfront, hothers⟩ :=
      List.map_eq_append_iff.1 (List.append_inj' h rfl).1
    obtain ⟨current, behind, rfl, rfl, -⟩ := List.map_eq_cons_iff.1 hothers
    refine ⟨⟨front.reverse, current, behind⟩, ?_, rfl, ?_, by simp⟩
    · exact Perceptron.mem_sentenceInstances.2 ⟨hambiguous, front, by simp, rfl⟩
    · rw [List.map_reverse, hfront, List.reverse_reverse]

variable [Field α] [LinearOrder α]

/-- What the trainer finds about a right instance holds of the scores in a window with the same
features: the right target scores best, and better than those before it. -/
lemma score_le_of_right {inst : Instance} {place other : Nat} (hright : inst.Right model)
    (hambiguous : inst.current.unit.ambiguous = true) (hvalid : inst.current.decision.Valid)
    (hagree : ∀ reading target, inst.current.unit.targets[reading]? = some target →
      window.activeLocations model inst.current.unit reading place
        = Perceptron.activeLocations model inst.before inst.current.unit inst.behind target)
    (hother : Decision.Valid (inst.current.unit, other)) :
    let score := fun reading => model.weights.score
      (window.activeLocations model inst.current.unit reading place)
    score other ≤ score inst.current.gold ∧
      (other < inst.current.gold → score other < score inst.current.gold) := by
  intro score
  obtain ⟨best, hbest⟩ := hright.isFirstMax hambiguous
  have hscore : ∀ reading, Decision.Valid (inst.current.unit, reading) →
      (inst.current.unit.targets.map fun target => model.weights.score
        (Perceptron.activeLocations model inst.before inst.current.unit inst.behind
          target))[reading]?
          = some (score reading) := by
    intro reading hreading
    have htwo : 1 < inst.current.unit.targets.length := by
      simpa [LexicalUnit.ambiguous] using hambiguous
    have hlt : reading < inst.current.unit.targets.length := by
      simpa [Decision.Valid, Nat.max_eq_right htwo.le] using hreading
    have hget := List.getElem?_eq_getElem hlt
    rw [List.getElem?_map, hget, Option.map_some, ← hagree reading _ hget]
  obtain rfl := Option.some.inj (hbest.here.symm.trans (hscore _ hvalid))
  have hget := hscore other hother
  exact ⟨hbest.le _ (List.mem_of_getElem? hget), fun hlt => hbest.lt other hlt _ hget⟩

section Learned

variable [IsStrictOrderedRing α] (hbeam : model.beam = 1)
  (hsegment : model.Segment text (sentence.map Example.unit ++ [last]) behind)
  (hend : last.isEnd = true) (hgold : ∀ ex ∈ sentence, ex.gold < ex.unit.targets.length)
  (hright : ∀ inst ∈ sentenceInstances [] sentence, inst.Right model)
include hbeam hsegment hend hgold hright

/-- **Behind right decisions the right one is made**, if the trainer finds every instance right. -/
lemma nextLayer_of_right (hcourse : Course model text history window input)
    (hrefill : window.refill model input = (window', .ok () rest))
    (hahead : window'.ahead = decision.1 :: ahead)
    (hdecision : rightDecisions sentence last
      = (chain 0 window'.pending window'.layers ++ history).reverse ++ decision :: todo) :
    ∃ cost, window'.nextLayer model decision.1 = [⟨cost, decision.2, 0⟩] := by
  have hrefilled := refilled_of_course hcourse hrefill
  have hlone : (window'.layers.headD []).length = 1 :=
    hrefilled.layers_eq ▸ lone_of_run hbeam (run_of_course hcourse)
  have hmem : decision ∈ rightDecisions sentence last := hdecision ▸ by simp
  have hvalid := valid_rightDecisions hgold decision hmem
  refine nextLayer_eq_singleton hbeam hlone hvalid fun other hother => ?_
  cases hambiguous : decision.1.ambiguous with
  | false =>
      -- There is one choice only.
      have hlength : decision.1.targets.length ≤ 1 := by
        simpa [LexicalUnit.ambiguous] using hambiguous
      simp only [Decision.Valid, Nat.max_eq_left hlength, Nat.lt_one_iff] at hvalid hother
      rw [hvalid, hother]
      exact ⟨le_rfl, fun hlt => absurd hlt (Nat.lt_irrefl 0)⟩
  | true =>
      -- The trainer has scored the same features, and has found the right target best.
      obtain ⟨inst, hinst, rfl, hbefore, hsentence⟩ := exists_instance_of_right
        (hsegment.endsBare last (by simp) hend) hambiguous hdecision
      rw [hsentence] at hsegment hgold
      have hvalidBefore : ∀ ex ∈ inst.before, ex.decision.Valid := fun ex hex =>
        Example.valid_decision (hgold ex (List.mem_append_left _ (List.mem_reverse.2 hex)))
      obtain ⟨-, hagree⟩ := refill_agrees hsegment hend hvalidBefore hcourse hrefill hahead
        hrefilled.underway.linked.length_pos (by rw [hbefore])
      exact score_le_of_right (hright inst hinst) hambiguous hvalid hagree hother

/-! ## The way -/

/-- **All decisions on the way are right**, those that have been written and those that wait. -/
lemma right_of_course (hcourse : Course model text history window input) :
    (chain 0 window.pending window.layers ++ history).reverse <+: rightDecisions sentence last := by
  induction hcourse with
  | start => exact List.nil_prefix
  | @step _ _ window' _ _ hcourse hrefill hne ih =>
      obtain ⟨unit, ahead, hahead⟩ := List.exists_cons_of_ne_nil hne
      have hrefilled := refilled_of_course hcourse hrefill
      rw [← hrefilled.pending_eq, ← hrefilled.layers_eq] at ih
      obtain ⟨decision, todo, rfl, hdecision⟩ :=
        exists_next_right hsegment hcourse hrefill hahead ih
      obtain ⟨cost, hlayer⟩ :=
        nextLayer_of_right hbeam hsegment hend hgold hright hcourse hrefill hahead hdecision
      rw [decisions_step hahead, hlayer, chain_cons List.getElem?_cons_zero, List.cons_append,
        List.reverse_cons, hdecision]
      exact ⟨todo, by simp⟩

/-- The decisions for a whole segment are the right ones. -/
lemma decisions_eq_right (hcourse : Course model text history window input)
    (hunits : (history.map Prod.fst).reverse = sentence.map Example.unit ++ [last]) :
    history.reverse = rightDecisions sentence last := by
  have hprefix := right_of_course hbeam hsegment hend hgold hright hcourse
  rw [List.reverse_append] at hprefix
  refine ((List.prefix_append _ _).trans hprefix).eq_of_length ?_
  rw [← map_fst_rightDecisions] at hunits
  simpa using congrArg List.length hunits

end Learned

/-! ## A whole text -/

open Perceptron (iterate)

variable [IsStrictOrderedRing α]

/-- **What a pass finds right is selected.**  A corpus of one sentence has been loaded, from a raw
text without separators, and a pass over it with a beam of one counts no mistakes.  Then the pass
leaves the model as it was, weights and all; and a fresh selector with that model comes to the end
of the raw text and writes it with the right target of each unit alone, and with every unit
closed. -/
theorem process_of_no_mistakes (hbeam : model.beam = 1) {raw gold : Bytes} (hraw : 0 ∉ raw)
    {corpus : Corpus} (hload : Corpus.load model raw gold = .ok corpus)
    (hone : corpus.OneSentence sentence) (hmistakes : (iterate corpus model).1.mistakes = 0)
    (flushSegments : Bool) :
    let trained := (iterate corpus model).2
    let outcome := Window.initial.process trained flushSegments raw
    trained = model ∧ outcome.fault = none ∧ outcome.rest = [] ∧
      ∃ text words blank, raw = Text.utf8 text ∧ Reads model text (words ++ [.blank blank]) ∧
        List.Forall₂ Example.RightPart sentence words ∧
        text = words.flatMap Part.before ++ blank ∧
        Event.written outcome.events = words.flatMap Part.behind ++ blank := by
  intro trained outcome
  obtain ⟨htrained, hright⟩ := Perceptron.iterate_of_no_mistakes hmistakes
  rw [hone.instancesOf_eq] at hright
  obtain ⟨last, behind, hend, hsegment, hgold⟩ := Corpus.segment_of_load hload
  rw [hone.flatten_eq] at hsegment hgold
  have hseparator : .char Input.segmentSeparator ∉ Input.ofBytes raw := fun hmem =>
    hraw (Utf8.subset_of_char_mem hmem (by decide))
  obtain rfl := hsegment.rest_eq_nil hseparator
  obtain ⟨text, htext, -⟩ := hsegment.exists_text
  rw [List.append_nil] at htext
  obtain ⟨hfault, hrest, decisions, window', input', hcourse, hunits, hwritten⟩ :=
    processInput_of_segment hsegment flushSegments
  have hdecisions := decisions_eq_right hbeam hsegment hend hgold hright hcourse hunits
  have hopen := open_of_segment hsegment
  rw [htext, ← map_fst_rightDecisions] at hsegment
  obtain ⟨parts, behind, hbehind, -, hreads, hmakes⟩ := exists_makes_of_segment hsegment
  obtain rfl := List.map_eq_nil_iff.1 hbehind.symm
  obtain ⟨words, rfl, hwords⟩ := exists_rightParts hend hgold hopen hmakes
  have hread : Reads model text (words ++ [.blank last.blank]) := by simpa using hreads [] .nil
  have houtcome : outcome = Window.initial.processInput model flushSegments (.ofBytes raw) := by
    show Window.initial.process trained flushSegments raw = _
    rw [show trained = model from htrained]
    rfl
  rw [houtcome]
  refine ⟨htrained, hfault, hrest, text, words, last.blank, (Utf8.utf8_of_items htext).symm, hread,
    hwords, ?_, ?_⟩
  · simpa [Part.before] using hread.text_eq
  · rw [hwritten, hdecisions, flatMap_writeChoice hmakes]
    simp [Part.behind]

/-- The target `b` weighs 3, and so it comes out best for the first unit; those of the second unit
weigh the same, and the first of them is right. -/
theorem process_of_no_mistakes_tie :
    let model : Model ℚ := { Perceptron.twoForms with beam := 1 }
    let raw := Text.utf8 "^x/a/b$ ^z/c/d$ ^y/e".toList
    let sentence : Sentence :=
      [⟨⟨[], some ⟨[.plain 'x'], [0]⟩, [⟨[.plain 'a'], [0, 1]⟩, ⟨[.plain 'b'], [0, 2]⟩]⟩, 1⟩,
        ⟨⟨[' '], some ⟨[.plain 'z'], [0]⟩, [⟨[.plain 'c'], [0]⟩, ⟨[.plain 'd'], [0]⟩]⟩, 0⟩,
        ⟨⟨[' '], some ⟨[.plain 'y'], [0]⟩, [⟨[.plain 'e'], [0]⟩]⟩, 0⟩]
    Corpus.load model raw (Text.utf8 "^x/b$ ^z/c$ ^y/e$".toList) = .ok [sentence] ∧
      (iterate [sentence] model).1.instances = 2 ∧ (iterate [sentence] model).2 = model ∧
      Event.written (Window.initial.process (iterate [sentence] model).2 false raw).events
        = "^x/b$ ^z/c$ ^y/e$".toList := by
  intro model raw sentence
  have hload : Corpus.load model raw (Text.utf8 "^x/b$ ^z/c$ ^y/e$".toList) = .ok [sentence] := by
    decide +kernel
  have hmistakes : (iterate [sentence] model).1.mistakes = 0 := by decide +kernel
  obtain ⟨htrained, -⟩ :=
    process_of_no_mistakes rfl (by decide +kernel) hload (Or.inl rfl) hmistakes false
  exact ⟨hload, by decide +kernel, htrained, by decide +kernel⟩

end Right

end Window

end LexicalSelection
