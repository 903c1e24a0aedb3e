import LexicalSelection.Proofs.Selector.Gain
import LexicalSelection.Proofs.Selector.Run
import Mathlib.Algebra.Order.Ring.Int

/-!
# Scores are gains

The window adds up weights as it goes: in each hypothesis, from the place of another one in a layer
that has been sorted and cut, and in its score, from the best hypothesis of each commit.  With exact
weights both are the gains of the decisions that they stand for.

* **`activeLocations_eq`** — what a window judges a target by is the evidence for the decision.
* `Costed` — every hypothesis of every layer costs what its own chain of decisions gains.
* `Reckoned` — what holds of the scores in every state of a run (`reckoned_of_run`).
* **`score_eq_gain`** — the score of a window is the gain of all decisions that have been written.
-/

namespace LexicalSelection

/-! ## The features of a decision -/

/-- The features of the chosen target, if the unit has a target, at a position. -/
def Decision.targetLocations (position : Int) (decision : Decision) : List Location :=
  (decision.target.map (Reading.locations position)).getD []

/-- The features of the source reading and of the chosen target at a position. -/
def Decision.locations (position : Int) (decision : Decision) : List Location :=
  decision.1.sourceLocations position ++ decision.targetLocations position

/-- The features of a reading that there may be, when it stands at a position. -/
lemma flatMap_features (reading : Option Reading) (position : Int) :
    (reading.toList.map (·, position)).flatMap
        (fun (reading, position) => reading.features.map (Location.mk position))
      = (reading.map (Reading.locations position)).getD [] := by
  cases reading with
  | none => rfl
  | some reading => simp [Reading.locations]

namespace Window

variable {α : Type} {model : Model α} {window : Window α} {unit : LexicalUnit}
  {pending : List LexicalUnit} {layers : List (Layer α)} {history : List Decision}
  {distance place count : Nat}

/-! ## The evidence in a window -/

/-- The chosen target is found by its number, and the only target by 0 as well. -/
lemma targetLocations_of_valid {decision : Decision} (h : decision.Valid) (position : Int) :
    decision.1.targetLocations position decision.2 = decision.targetLocations position := by
  obtain ⟨⟨blank, source, targets⟩, choice⟩ := decision
  simp only [Decision.Valid] at h
  simp only [LexicalUnit.targetLocations, LexicalUnit.targetOrSole, Decision.targetLocations,
    Decision.target]
  cases hget : targets[choice]? with
  | some target => rfl
  | none =>
      have hlength := List.getElem?_eq_none_iff.1 hget
      obtain rfl : targets = [] := List.length_eq_zero_iff.1 (by omega)
      rfl

/-- A unit that was left with its chosen target answers to the number of its seed. -/
lemma targetLocations_keepChoice (decision : Decision) (position : Int) :
    (keepChoice decision).targetLocations position 0 = decision.targetLocations position := by
  obtain ⟨⟨blank, source, targets⟩, choice⟩ := decision
  simp only [keepChoice, LexicalUnit.keepOnly, LexicalUnit.targetLocations,
    LexicalUnit.targetOrSole, Decision.targetLocations, Decision.target]
  cases targets[choice]? with
  | none => rfl
  | some target => rfl

/-- Source features behind a place are those of the units, each at its distance. -/
lemma sourcesFrom_eq (units : List LexicalUnit) : LexicalUnit.sourcesFrom distance units
    = (units.zipIdx distance).flatMap fun entry => entry.1.sourceLocations entry.2 := by
  induction units generalizing distance with
  | nil => rfl
  | cons unit units ih => simp [LexicalUnit.sourcesFrom, ih]

/-- Source features before a place are those of the decided units, each at its distance. -/
lemma sourcesBefore_eq {units : List LexicalUnit} {decisions : List Decision}
    (h : units.map LexicalUnit.source = decisions.map fun decision => decision.1.source) :
    LexicalUnit.sourcesBefore distance units = (decisions.zipIdx distance).flatMap
      fun entry => entry.1.1.sourceLocations (-entry.2) := by
  induction decisions generalizing units distance with
  | nil =>
      obtain rfl := List.map_eq_nil_iff.1 h
      rfl
  | cons decision decisions ih =>
      obtain ⟨unit, units, rfl, hunit, hunits⟩ := List.map_eq_cons_iff.1 h
      simp [LexicalUnit.sourcesBefore, LexicalUnit.sourceLocations, ih hunits, hunit]

/-- The evidence for a decision, with the features of the units behind as the window lists them. -/
lemma evidence_eq (earlier : List Decision) (decision : Decision) (later : List LexicalUnit) :
    model.evidence earlier decision later = Ascending.ofList
      (((earlier.take model.lookbehind).zipIdx 1).flatMap
          (fun entry => entry.1.locations (-entry.2))
        ++ decision.targetLocations 0
        ++ LexicalUnit.sourcesFrom 0
          ((LexicalUnit.throughEnd (decision.1 :: later)).take (model.lookahead + 1))) := by
  simp only [Model.evidence, Model.around, List.flatMap_append, List.flatMap_assoc,
    List.map_append, flatMap_features, sourcesFrom_eq]
  rfl

/-- The features of earlier decisions are those of their source readings and of their targets. -/
lemma mem_locations_before (location : Location) (decisions : List (Decision × Nat)) :
    location ∈ decisions.flatMap (fun entry => entry.1.locations (-entry.2)) ↔
      location ∈ decisions.flatMap (fun entry => entry.1.1.sourceLocations (-entry.2)) ∨
        location ∈ decisions.flatMap (fun entry => entry.1.targetLocations (-entry.2)) := by
  simp only [Decision.locations, List.mem_flatMap, List.mem_append, and_or_left, exists_or]

section Evidence

variable [Zero α]

/-- Below the seeds the decisions that were made for good are looked at. -/
lemma pathLocations_seeds (distance : Nat) {decisions : List Decision}
    (h : decisions.length ≤ count) :
    pathLocations distance 0 ((decisions.map keepChoice).zip (seedLayers (α := α) count))
      = (decisions.zipIdx distance).flatMap
        fun entry => entry.1.targetLocations (-entry.2) := by
  induction decisions generalizing distance count with
  | nil => rfl
  | cons decision decisions ih =>
      cases count with
      | zero => simp at h
      | succ count =>
          have hseeds : seedLayers (α := α) (count + 1) = [.seed] :: seedLayers count := rfl
          have hrest := ih (distance + 1) (Nat.le_of_succ_le_succ h)
          rw [List.map_cons, hseeds, List.zip_cons_cons, List.zipIdx_cons, List.flatMap_cons,
            ← hrest]
          show _ = decision.targetLocations (-distance) ++ _
          rw [← targetLocations_keepChoice]
          rfl

/-- The way back from a hypothesis passes its chain, and then the decisions before. -/
lemma pathLocations_chain (distance : Nat) {past : List LexicalUnit} {taken : Nat}
    (h : Linked past.length pending layers) (hplace : place < (layers.headD []).length)
    (hpast : past = (history.take taken).map keepChoice) (hcount : count ≤ taken) :
    pathLocations distance place (((pending ++ past).take count).zip layers)
      = (((chain place pending layers ++ history).take count).zipIdx distance).flatMap
        fun entry => entry.1.targetLocations (-entry.2) := by
  induction h generalizing distance place count with
  | seeds =>
      have hzero : place = 0 := by simpa [seedLayers, List.replicate_succ] using hplace
      have htake : past.take count = (history.take count).map keepChoice := by
        rw [hpast, ← List.map_take, List.take_take, Nat.min_eq_left hcount]
      have hlength : (history.take count).length ≤ past.length := by
        simp only [hpast, List.length_map, List.length_take]
        omega
      rw [hzero, chain_nil, List.nil_append, List.nil_append, htake, pathLocations_seeds _ hlength]
  | @layer unit pending layer layers _ hreading hprevious h ih =>
      rw [List.headD_cons] at hplace
      have hget := List.getElem?_eq_getElem hplace
      have hmem := List.getElem_mem hplace
      cases count with
      | zero => rfl
      | succ count =>
          have hrest := ih (distance + 1) (hprevious _ hmem) (Nat.le_of_succ_le hcount)
          rw [chain_cons hget, List.cons_append, List.cons_append, List.take_succ_cons,
            List.take_succ_cons, List.zip_cons_cons, List.zipIdx_cons, List.flatMap_cons, ← hrest]
          show _ = Decision.targetLocations (-distance) (unit, layer[place].reading) ++ _
          rw [← targetLocations_of_valid (hreading _ hmem)]
          simp [pathLocations, hget]

lemma take_append_take {β : Type} (count : Nat) (xs ys : List β) :
    (xs ++ ys.take count).take count = (xs ++ ys).take count := by
  simp only [List.take_append, List.take_take]
  congr 2
  omega

/-- The units before the current one, with their source readings, are those of the decisions. -/
lemma sources_before (hlinked : window.IsLinked) (hplace : place < (window.layers.headD []).length)
    (hpast : window.past = (history.take count).map keepChoice) :
    (window.before count).map LexicalUnit.source
      = ((chain place window.pending window.layers ++ history).take count).map
        fun decision => decision.1.source := by
  have hchain : (chain place window.pending window.layers).map (fun decision => decision.1.source)
      = window.pending.map LexicalUnit.source := by
    rw [← map_fst_chain hlinked hplace, List.map_map]
    simp [map_fst_chain hlinked hplace]
  have hhistory : window.past.map LexicalUnit.source
      = (history.map fun decision => decision.1.source).take count := by
    rw [hpast, List.map_map, ← List.map_take]
    rfl
  rw [before_eq, List.map_take, List.map_append, hhistory, take_append_take, List.map_take,
    List.map_append, hchain]

/-- **What a window judges a target by is the evidence for the decision**, along the chain of the
hypothesis that it continues. -/
lemma activeLocations_eq {reading : Nat} {ahead : List LexicalUnit} (hlinked : window.IsLinked)
    (hplace : place < (window.layers.headD []).length)
    (hpast : window.past = (history.take model.lookbehind).map keepChoice)
    (hahead : LexicalUnit.throughEnd (unit :: ahead) = window.ahead)
    (hvalid : Decision.Valid (unit, reading)) :
    window.activeLocations model unit reading place
      = model.evidence (chain place window.pending window.layers ++ history) (unit, reading)
        ahead := by
  rw [activeLocations, context, sourcesBefore_eq (sources_before hlinked hplace hpast),
    before_eq, pathLocations_chain _ hlinked hplace hpast (Nat.le_refl _),
    targetLocations_of_valid hvalid, evidence_eq, hahead]
  refine Ascending.ofList_congr fun location => ?_
  simp only [List.mem_append, mem_locations_before]
  tauto

end Evidence

/-! ## The units around -/

lemma throughEnd_append_of_open {front : List LexicalUnit} (h : LexicalUnit.Open front)
    (units : List LexicalUnit) :
    LexicalUnit.throughEnd (front ++ units) = front ++ LexicalUnit.throughEnd units := by
  induction front with
  | nil => rfl
  | cons unit front ih =>
      obtain ⟨hunit, hfront⟩ := LexicalUnit.open_cons.1 h
      simp [LexicalUnit.throughEnd, hunit, ih hfront]

section Around

variable [Zero α]

/-- What is ahead of a window under way is in one segment. -/
lemma Underway.throughEnd_ahead (h : window.Underway) (hne : window.ahead ≠ []) :
    LexicalUnit.throughEnd window.ahead = window.ahead := by
  cases hended : window.ended with
  | false =>
      have hopen := throughEnd_append_of_open (h.open_ahead hended) []
      simpa [LexicalUnit.throughEnd] using hopen
  | true =>
      rcases h.whole_ahead hended with hnil | ⟨front, last, hahead, hfront, hlast⟩
      · exact absurd (List.append_eq_nil_iff.1 hnil).2 hne
      · rw [hahead, throughEnd_append_of_open hfront]
        simp [LexicalUnit.throughEnd, hlast]

/-- Behind a refill enough units are known to judge the next decision. -/
lemma Refilled.settled {window' : Window α} {input rest : Input}
    (h : Refilled model window input window' rest) (hne : window'.ahead ≠ []) :
    model.Settled window'.ahead := by
  rcases h.ready with hended | hlength
  · rcases h.underway.whole_ahead hended with hnil | ⟨front, last, hahead, -, hlast⟩
    · exact absurd (List.append_eq_nil_iff.1 hnil).2 hne
    · exact Or.inr ⟨last, by simp [hahead], hlast⟩
  · exact Or.inl hlength

/-- The past units behind a commit are those of the last decisions. -/
lemma past_commit [Sub α] {ahead : List LexicalUnit}
    (hpast : window.past = (history.take model.lookbehind).map keepChoice) :
    (window.commit model layers unit ahead).1.past
      = ((chain 0 (unit :: window.pending) layers ++ history).take model.lookbehind).map
        keepChoice := by
  rw [commit_past, hpast, List.map_take, take_append_take, ← List.map_append, List.map_take]

variable [Add α] [Sub α] [Ord α]

/-- After a step the past units are those of the last decisions, as before. -/
lemma past_step (hpast : window.past = (history.take model.lookbehind).map keepChoice) :
    (window.step model).1.past
      = ((window.decided model ++ history).take model.lookbehind).map keepChoice := by
  cases hahead : window.ahead with
  | nil => simpa [step, decided, hahead] using hpast
  | cons unit ahead =>
      simp only [step, decided, hahead]
      split
      · exact hpast
      · exact past_commit hpast

/-- **The past units are those of the last decisions**, each with its chosen target. -/
lemma past_of_run {input : Input} (h : Run model history window input) :
    window.past = (history.take model.lookbehind).map keepChoice := by
  induction h with
  | start => simp [initial]
  | step hrun hrefill _ ih =>
      obtain ⟨units, ended, rfl⟩ := (refilled_refill (underway_of_run hrun) hrefill).grown
      exact past_step ih
  | next hrun hrefill _ _ ih =>
      obtain ⟨units, ended, rfl⟩ := (refilled_refill (underway_of_run hrun) hrefill).grown
      exact ih
  | broken hrun hrefill _ ih =>
      obtain ⟨units, -, -, rfl⟩ := grown_of_refill_error (underway_of_run hrun) hrefill
      exact ih

end Around

/-! ## Costs -/

section Costs

variable [AddCommGroup α]

/-- Every hypothesis of every layer costs what the decisions of its chain gain, with the sign turned
round.  The units behind a chain are those with layers above it and those ahead. -/
def Costed (model : Model α) (history : List Decision) (pending : List LexicalUnit)
    (layers : List (Layer α)) (ahead : List LexicalUnit) : Prop :=
  ∀ height place hypothesis, ((layers.drop height).headD [])[place]? = some hypothesis →
    hypothesis.cost = - model.gain (chain place (pending.drop height) (layers.drop height)) history
      ((pending.take height).reverse ++ ahead)

/-- Seeds cost nothing. -/
lemma costed_seeds (count : Nat) (ahead : List LexicalUnit) :
    Costed model history [] (seedLayers count) ahead := by
  intro height place hypothesis hhypothesis
  have hseed : hypothesis = .seed := by
    rw [seedLayers, List.drop_replicate] at hhypothesis
    cases hcount : count + 1 - height with
    | zero => simp [hcount] at hhypothesis
    | succ more =>
        simp only [hcount, List.replicate_succ, List.headD_cons, List.getElem?_singleton]
          at hhypothesis
        split at hhypothesis
        · exact (Option.some.inj hhypothesis).symm
        · cases hhypothesis
  simp [hseed, Hypothesis.seed, Model.gain]

/-- Further units change no cost that has been worked out with enough units known. -/
lemma Costed.append {ahead : List LexicalUnit} (h : Costed model history pending layers ahead)
    (hsettled : ∀ unit ∈ pending.head?, model.Settled (unit :: ahead)) (more : List LexicalUnit) :
    Costed model history pending layers (ahead ++ more) := by
  intro height place hypothesis hhypothesis
  have hbehind : ∀ decision ∈ (chain place (pending.drop height) (layers.drop height)).head?,
      model.Settled (decision.1 :: ((pending.take height).reverse ++ ahead)) :=
    fun decision hdecision => Model.settled_drop hsettled height _ (head?_chain hdecision)
  rw [h height place hypothesis hhypothesis, ← List.append_assoc, Model.gain_later _ hbehind]

variable [Ord α]

/-- What a hypothesis for the current unit costs, by the one that it continues. -/
lemma cost_of_mem_allHypotheses {hypothesis : Hypothesis α}
    (h : hypothesis ∈ window.allHypotheses model unit) :
    ∃ before, (window.layers.headD [])[hypothesis.previous]? = some before ∧
      hypothesis.cost = before.cost - model.weights.score
        (window.activeLocations model unit hypothesis.reading hypothesis.previous) := by
  have hmem := Ascending.mem_of_mem_ofList h
  simp only [List.mem_flatMap, List.mem_map, Prod.exists, List.mk_mem_zipIdx_iff_getElem?] at hmem
  obtain ⟨reading, -, before, previous, hbefore, rfl⟩ := hmem
  exact ⟨before, hbefore, rfl⟩

/-- A new layer costs what its chains gain, when the layers before do. -/
lemma costed_nextLayer {ahead : List LexicalUnit} (hlinked : window.IsLinked)
    (hpast : window.past = (history.take model.lookbehind).map keepChoice)
    (hahead : window.ahead = unit :: ahead)
    (hthrough : LexicalUnit.throughEnd (unit :: ahead) = unit :: ahead)
    (h : Costed model history window.pending window.layers window.ahead) :
    Costed model history (unit :: window.pending)
      (window.nextLayer model unit :: window.layers) ahead := by
  intro height place hypothesis hhypothesis
  cases height with
  | zero =>
      -- A new hypothesis costs one judgement more than the one of the last layer that it continues.
      rw [List.drop_zero, List.headD_cons] at hhypothesis
      have hmem := mem_nextLayer (List.mem_of_getElem? hhypothesis)
      obtain ⟨hvalid, hplace⟩ := mem_allHypotheses hmem
      obtain ⟨before, hbefore, hcost⟩ := cost_of_mem_allHypotheses hmem
      have hchain : before.cost = - model.gain
          (chain hypothesis.previous window.pending window.layers) history (unit :: ahead) := by
        simpa [hahead] using h 0 _ before hbefore
      have hlocations := activeLocations_eq hlinked hplace hpast (hthrough.trans hahead.symm) hvalid
      rw [hcost, hchain, hlocations,
        List.drop_zero, List.drop_zero, chain_cons hhypothesis, Model.gain]
      simp only [List.take_zero, List.reverse_nil, List.nil_append, neg_add, sub_eq_add_neg]
      exact add_comm _ _
  | succ height =>
      -- Below it the chains stay; the unit has only moved from those ahead to those above.
      rw [List.drop_succ_cons] at hhypothesis
      have hcost := h height place hypothesis hhypothesis
      rw [hahead] at hcost
      simpa using hcost

end Costs

/-! ## Scores -/

section Scores

variable [AddCommGroup α]

/-- What holds of the scores in every state of a run: they are gains, of decisions that have been
made for good or along some chain.  The past units are those of the last decisions, and for each
unit that has been decided or has a layer enough units were known. -/
structure Reckoned (model : Model α) (history : List Decision) (window : Window α) : Prop where
  past : window.past = (history.take model.lookbehind).map keepChoice
  settled : ∀ unit ∈ (window.pending ++ history.map Prod.fst).head?,
    model.Settled (unit :: window.ahead)
  score : window.score = model.gain history [] window.undecided
  costs : Costed model history window.pending window.layers window.ahead

lemma reckoned_initial : Reckoned model [] .initial where
  past := by simp [initial]
  settled := by simp [initial]
  score := rfl
  costs := costed_seeds 0 []

/-- Units that are read ahead change no score. -/
lemma Reckoned.grown (h : Reckoned model history window) (units : List LexicalUnit)
    (ended : Bool) :
    Reckoned model history { window with ahead := window.ahead ++ units, ended } := by
  refine ⟨h.past, fun unit hunit => (h.settled unit hunit).append_right units, ?_, ?_⟩
  · have hhistory : ∀ decision ∈ history.head?, model.Settled (decision.1 :: window.undecided) := by
      intro decision hdecision
      have hdrop := Model.settled_drop h.settled window.pending.length decision.1
      rw [List.drop_left, List.take_left] at hdrop
      exact hdrop (by simp_all)
    have hscore := Model.gain_later [] hhistory units
    rw [h.score, ← hscore, undecided, undecided, List.append_assoc]
  · refine h.costs.append (fun unit hunit => h.settled unit ?_) units
    rw [List.head?_append]
    simp_all

/-- Refilling changes no score and no cost. -/
lemma Reckoned.refilled {window' : Window α} {input rest : Input}
    (h : Reckoned model history window) (hrefilled : Refilled model window input window' rest) :
    Reckoned model history window' := by
  obtain ⟨units, ended, rfl⟩ := hrefilled.grown
  exact h.grown units ended

/-- A commit keeps the account: the decisions that it writes gain what the best hypothesis costs. -/
lemma Reckoned.committed {layer : Layer α} {ahead : List LexicalUnit}
    (h : Reckoned model history window) (hne : layer ≠ [])
    (hunits : (chain 0 (unit :: window.pending) (layer :: layers)).map Prod.fst
      = unit :: window.pending)
    (hcosts : Costed model history (unit :: window.pending) (layer :: layers) ahead)
    (hsettled : model.Settled (unit :: ahead))
    (hscore : window.score = model.gain history [] ((unit :: window.pending).reverse ++ ahead)) :
    Reckoned model (chain 0 (unit :: window.pending) (layer :: layers) ++ history)
      (window.commit model (layer :: layers) unit ahead).1 := by
  obtain ⟨best, others, rfl⟩ := List.exists_cons_of_ne_nil hne
  have hbest := hcosts 0 0 best rfl
  refine ⟨past_commit h.past, ?_, ?_, costed_seeds _ _⟩
  · intro other hother
    rw [List.map_append, hunits] at hother
    obtain rfl := Option.some.inj hother
    exact hsettled
  · have hundecided :
        (window.commit model ((best :: others) :: layers) unit ahead).1.undecided = ahead := rfl
    rw [commit_score, hundecided, Model.gain_append, hunits, hscore, hbest]
    simp [add_comm]

variable [Ord α]

/-- **A step keeps the account.** -/
lemma reckoned_step (h : Reckoned model history window) (hunderway : window.Underway)
    (hsettled : model.Settled window.ahead) (hne : window.ahead ≠ []) :
    Reckoned model (window.decided model ++ history) (window.step model).1 := by
  obtain ⟨unit, ahead, hahead⟩ := List.exists_cons_of_ne_nil hne
  have hthrough := hunderway.throughEnd_ahead hne
  rw [hahead] at hthrough hsettled
  have hcosts := costed_nextLayer hunderway.linked h.past hahead hthrough h.costs
  have hlinked := linked_nextLayer model hunderway.linked unit
  have hscore : window.score
      = model.gain history [] ((unit :: window.pending).reverse ++ ahead) := by
    rw [h.score, undecided, hahead, List.reverse_cons, List.append_assoc]
    rfl
  simp only [step, decided, hahead]
  split
  -- The unit waits: no decision is made, and the new layer is the only change.
  · exact ⟨h.past, by simpa using hsettled, hscore, hcosts⟩
  -- The unit is decided with all that wait: the chain of the best hypothesis is history now.
  · have hunits := map_fst_chain hlinked hlinked.length_pos
    exact h.committed hlinked.headD_ne_nil hunits hcosts hsettled hscore

/-! ## Runs -/

variable {input : Input}

/-- The scores are gains in every state of a run. -/
lemma reckoned_of_run (h : Run model history window input) : Reckoned model history window := by
  induction h with
  | start => exact reckoned_initial
  | step hrun hrefill hahead ih =>
      have hrefilled := refilled_refill (underway_of_run hrun) hrefill
      exact reckoned_step (ih.refilled hrefilled) hrefilled.underway (hrefilled.settled hahead)
        hahead
  | next hrun hrefill hahead _ ih =>
      have hrefilled := refilled_refill (underway_of_run hrun) hrefill
      obtain ⟨hpast, hsettled, hscore, hcosts⟩ := ih.refilled hrefilled
      exact ⟨hpast, hsettled, hscore, hcosts⟩
  | broken hrun hrefill _ ih =>
      obtain ⟨units, -, -, rfl⟩ := grown_of_refill_error (underway_of_run hrun) hrefill
      exact ih.grown units false

/-- **Scores are gains.**  After any calls that came to their end, the score of the window is the
gain of all decisions, whose targets are the ones that were written.  In every state in between it
is the gain of the decisions so far, and every hypothesis, of the layers there are and of the next
one, costs what its chain gains behind those decisions. -/
theorem score_eq_gain (model : Model α) :
    (∀ calls window, Served model calls window →
      ∃ logs : List (List (List Decision)),
        List.Forall₂ (fun call segments => Selection model (.ofBytes call.1) segments call.2)
          calls logs ∧
        (∀ decision ∈ logs.flatten.flatten, Decision.Valid decision) ∧
        window.score = model.gain logs.flatten.flatten.reverse [] []) ∧
    (∀ history window input, Run model history window input →
      window.score = model.gain history [] window.undecided ∧
      Costed model history window.pending window.layers window.ahead ∧
      ∀ window' rest unit ahead, window.refill model input = (window', .ok () rest) →
        window'.ahead = unit :: ahead →
          Costed model history (unit :: window'.pending)
            (window'.nextLayer model unit :: window'.layers) ahead) := by
  refine ⟨fun calls window hserved => ?_, fun history window input hrun => ?_⟩
  · obtain ⟨logs, hrests, hlogs⟩ := selection_of_served hserved
    refine ⟨logs, hlogs, fun decision hdecision => ?_, ?_⟩
    · exact valid_of_run (hrests.run []) decision (List.mem_reverse.2 hdecision)
    · have hscore := (reckoned_of_run (hrests.run [])).score
      have hundecided : ({ window with ended := false } : Window α).undecided = [] :=
        hrests.undecided
      rw [hundecided] at hscore
      exact hscore
  · have hreckoned := reckoned_of_run hrun
    refine ⟨hreckoned.score, hreckoned.costs, ?_⟩
    intro window' rest unit ahead hrefill hahead
    have hrefilled := refilled_refill (underway_of_run hrun) hrefill
    have hthrough := hrefilled.underway.throughEnd_ahead (by simp [hahead])
    exact costed_nextLayer hrefilled.underway.linked (hreckoned.refilled hrefilled).past hahead
      (hahead ▸ hthrough) (hreckoned.refilled hrefilled).costs

/-- A model that weighs neighbours.  The first unit gets its second target because of the source
reading behind it, the target of the second one is liked behind the source reading before it, and
the score is the sum of the two weights. -/
theorem score_eq_gain_two_units :
    let model : Model Int := Model.setWeight (.of ⟨-1, 2⟩ ⟨0, 4⟩) 4 <|
      Model.setWeight (.of ⟨0, 1⟩ ⟨1, 3⟩) 3 <| Model.rebuildMatcher
        { lookbehind := 1, lookahead := 1
          features := [{ name := [] }, { name := ['C'], patterns := ["tl/c".toList] },
            { name := ['A'], patterns := ["sl/a".toList] },
            { name := ['D'], patterns := ["sl/d".toList] },
            { name := ['E'], patterns := ["tl/e".toList] }] }
    let text : Text := "^a/b/c$ ^d/e$".toList
    let first := (Window.initial.refill model (.ofText text)).1
    (∃ logs, List.Forall₂ (fun call segments => Selection model (.ofBytes call.1) segments call.2)
        [(text.utf8, "^a/c$ ^d/e$".toList)] logs ∧
      model.gain logs.flatten.flatten.reverse [] [] = 7) ∧
    ∃ unit behind, first.ahead = [unit, behind] ∧
      Costed model [] (unit :: first.pending) (first.nextLayer model unit :: first.layers)
        [behind] := by
  intro model text first
  have hfault : (Window.initial.process model false text.utf8).fault = none := by decide +kernel
  have hwritten : Event.written (Window.initial.process model false text.utf8).events
      = "^a/c$ ^d/e$".toList := by decide +kernel
  have hscore : (Window.initial.process model false text.utf8).window.score = 7 := by
    decide +kernel
  obtain ⟨hserved, hrun⟩ := score_eq_gain model
  obtain ⟨logs, hlogs, -, hgain⟩ := hserved _ _ (.call .initial false _ hfault)
  have hrefill : Window.initial.refill model (.ofText text) = (first, .ok () []) :=
    Prod.ext rfl (by decide +kernel)
  have hahead : first.ahead
      = [⟨[], some ⟨[.plain 'a'], [0, 2]⟩, [⟨[.plain 'b'], [0]⟩, ⟨[.plain 'c'], [0, 1]⟩]⟩,
        ⟨[' '], some ⟨[.plain 'd'], [0, 3]⟩, [⟨[.plain 'e'], [0, 4]⟩]⟩] := by
    decide +kernel
  rw [hwritten] at hlogs
  exact ⟨⟨logs, hlogs, hgain ▸ hscore⟩, _, _, hahead,
    (hrun _ _ _ (.start _)).2.2 _ _ _ _ hrefill hahead⟩

end Scores

end Window

end LexicalSelection
