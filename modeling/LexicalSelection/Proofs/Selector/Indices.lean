import LexicalSelection.Proofs.Selector.Calls
import Mathlib.Data.List.Chain

/-!
# Every index is in range

Hypotheses name each other by their places in layers, and layers belong to units by their places in
a row.  The shape of the window keeps all these places in range, whatever has been read, and also
after calls that failed.

* `Sound` — the shape of a window.
* `pathLocations?`, `choices?` — the ways back from a hypothesis, which fail at an index that is out
  of range.
* `InRange` — no index is out of range when the current unit is decided.
* **`sound_of_run`** — every state of a run is sound.
* `length_events_processInput` — a call takes no more turns than its input allows.
* **`every_index_in_range`** — so every call returns, and no index is out of range on its way.
-/

namespace LexicalSelection.Window

variable {α : Type} {model : Model α} {window window' : Window α} {input rest : Input}
  {units : List LexicalUnit} {layers : List (Layer α)} {history : List Decision}
  {distance place count : Nat}

/-! ## The shape of a window -/

/-- Each hypothesis of a layer names one of the layer before. -/
def Names (layer before : Layer α) : Prop :=
  ∀ hypothesis ∈ layer, hypothesis.previous < before.length

/-- The shape of a window.  Layers, pending units and past ones come with the last one first. -/
structure Sound [Zero α] [Ord α] (model : Model α) (window : Window α) : Prop where
  /-- There is a layer for each past unit, for the start, and for each pending unit. -/
  layers_length : window.layers.length = window.past.length + 1 + window.pending.length
  /-- The layers for the past units and for the start are single seeds. -/
  seeds : window.layers.drop window.pending.length = seedLayers window.past.length
  /-- No layer is empty. -/
  ne_nil : ∀ layer ∈ window.layers, layer ≠ []
  /-- In each layer better hypotheses come first. -/
  strict : ∀ layer ∈ window.layers, Ascending.Strict layer
  /-- No layer has more hypotheses than the beam takes. -/
  length_le : model.beam ≠ 0 → ∀ layer ∈ window.layers, layer.length ≤ model.beam
  /-- Each hypothesis names one of the layer before. -/
  named : window.layers.IsChain Names
  /-- Each hypothesis chooses a target of its unit. -/
  readings : ∀ entry ∈ (window.pending ++ window.past).zip window.layers,
    ∀ hypothesis ∈ entry.2, Decision.Valid (entry.1, hypothesis.reading)
  /-- No more past units are kept than the model looks at. -/
  past_length : window.past.length ≤ model.lookbehind
  /-- A past unit has its chosen target at most. -/
  past_sole : ∀ unit ∈ window.past, unit.targets.length ≤ 1
  /-- Only units with several targets wait. -/
  waiting : ∀ unit ∈ window.pending, unit.ambiguous = true

section Shape

variable [Zero α] [Ord α]

/-- What is ahead does not matter for the shape. -/
lemma Sound.of_eq (h : window.Sound model) (hpast : window'.past = window.past)
    (hpending : window'.pending = window.pending) (hlayers : window'.layers = window.layers) :
    window'.Sound model := by
  cases window
  cases window'
  cases hpast
  cases hpending
  cases hlayers
  exact { h with }

lemma Sound.headD_ne_nil (h : window.Sound model) : window.layers.headD [] ≠ [] := by
  cases hlayers : window.layers with
  | nil =>
      have hlength := h.layers_length
      simp [hlayers] at hlength
      omega
  | cons layer layers => exact h.ne_nil layer (by simp [hlayers])

omit [Ord α] in
lemma mem_seedLayers {layer : Layer α} (hlayers : layers = seedLayers count) (h : layer ∈ layers) :
    layer = [.seed] :=
  List.eq_of_mem_replicate (hlayers ▸ h)

/-- With nothing pending there are single seeds only. -/
lemma sound_of_seeds (hpending : window.pending = [])
    (hlayers : window.layers = seedLayers window.past.length)
    (hlength : window.past.length ≤ model.lookbehind)
    (hsole : ∀ unit ∈ window.past, unit.targets.length ≤ 1) : window.Sound model where
  layers_length := by simp [hlayers, hpending, seedLayers]
  seeds := by simp [hlayers, hpending]
  ne_nil layer hlayer := by simp [mem_seedLayers hlayers hlayer]
  strict layer hlayer := by
    rw [mem_seedLayers hlayers hlayer]
    exact List.pairwise_singleton _ _
  length_le hbeam layer hlayer := by
    rw [mem_seedLayers hlayers hlayer]
    exact Nat.one_le_iff_ne_zero.2 hbeam
  named := by
    rw [hlayers]
    refine List.isChain_replicate_of_rel _ ?_
    intro hypothesis hmem
    simp [List.mem_singleton.1 hmem, Hypothesis.seed]
  readings entry hentry hypothesis hmem := by
    rw [mem_seedLayers hlayers (List.of_mem_zip hentry).2] at hmem
    simp [List.mem_singleton.1 hmem, Hypothesis.seed, Decision.Valid]
  past_length := hlength
  past_sole := hsole
  waiting := by simp [hpending]

lemma sound_initial (model : Model α) : Window.initial.Sound model :=
  sound_of_seeds rfl rfl (Nat.zero_le _) (by simp [initial])

/-! ## One step -/

section Steps

variable [Add α] [Sub α] [Std.TransOrd α] {unit : LexicalUnit} {ahead : List LexicalUnit}

/-- A layer has no two equal hypotheses. -/
lemma strict_nextLayer (model : Model α) (window : Window α) (unit : LexicalUnit) :
    Ascending.Strict (window.nextLayer model unit) := by
  have hall : Ascending.Strict (window.allHypotheses model unit) := Ascending.strict_ofList _
  simp only [nextLayer]
  split
  · exact hall
  · exact hall.sublist (List.take_sublist _ _)

omit [Std.TransOrd α] in
/-- A layer has no more hypotheses than the beam keeps. -/
lemma length_nextLayer_le (window : Window α) (unit : LexicalUnit) (hbeam : model.beam ≠ 0) :
    (window.nextLayer model unit).length ≤ model.beam := by
  simp [nextLayer, hbeam]

omit [Std.TransOrd α] in
/-- Each hypothesis names a place of the layer before. -/
lemma names_nextLayer (model : Model α) (window : Window α) (unit : LexicalUnit) :
    Names (window.nextLayer model unit) (window.layers.headD []) :=
  fun _ hmem => (mem_allHypotheses (mem_nextLayer hmem)).2

omit [Std.TransOrd α] in
/-- A new layer keeps the rows of layers in shape. -/
lemma Sound.isChain_nextLayer (h : window.Sound model) (unit : LexicalUnit) :
    (window.nextLayer model unit :: window.layers).IsChain Names := by
  rw [List.isChain_cons]
  refine ⟨?_, h.named⟩
  intro before hbefore
  have hnames := names_nextLayer model window unit
  rwa [List.headD_eq_head?_getD, hbefore] at hnames

/-- A unit that leaves a choice waits under a new layer. -/
lemma Sound.wait (h : window.Sound model) (hambiguous : unit.ambiguous = true) :
    ({ window with pending := unit :: window.pending, ahead := ahead,
                   layers := window.nextLayer model unit :: window.layers } : Window α).Sound
      model where
  layers_length := by simp [h.layers_length, Nat.add_assoc]
  seeds := h.seeds
  ne_nil := List.forall_mem_cons.2 ⟨nextLayer_ne_nil h.headD_ne_nil, h.ne_nil⟩
  strict := List.forall_mem_cons.2 ⟨strict_nextLayer model window unit, h.strict⟩
  length_le hbeam :=
    List.forall_mem_cons.2 ⟨length_nextLayer_le window unit hbeam, h.length_le hbeam⟩
  named := h.isChain_nextLayer unit
  readings := List.forall_mem_cons.2
    ⟨fun _ hmem => (mem_allHypotheses (mem_nextLayer hmem)).1, h.readings⟩
  past_length := h.past_length
  past_sole := h.past_sole
  waiting := List.forall_mem_cons.2 ⟨hambiguous, h.waiting⟩

omit [Zero α] [Ord α] [Add α] [Sub α] [Std.TransOrd α] in
lemma targets_keepChoice_le (choice : LexicalUnit × Nat) :
    (keepChoice choice).targets.length ≤ 1 := by
  simp only [keepChoice, LexicalUnit.keepOnly]
  cases choice.1.targets[choice.2]? <;> simp

omit [Add α] [Std.TransOrd α] in
/-- Behind a commit only past units are left. -/
lemma Sound.commit (h : window.Sound model) :
    (window.commit model layers unit ahead).1.Sound model := by
  refine sound_of_seeds rfl rfl (List.length_take_le _ _) ?_
  intro past hpast
  rcases List.mem_append.1 (List.mem_of_mem_take hpast) with hnew | hold
  · obtain ⟨choice, -, rfl⟩ := List.mem_map.1 hnew
    exact targets_keepChoice_le choice
  · exact h.past_sole past hold

/-- **A step keeps the shape.** -/
lemma sound_step (h : window.Sound model) : (window.step model).1.Sound model := by
  cases hahead : window.ahead with
  | nil => simpa [step, hahead] using h
  | cons unit ahead =>
      simp only [step, hahead]
      split
      · rename_i hambiguous
        exact h.wait hambiguous
      · exact h.commit

/-! ## Runs -/

omit [Ord α] [Add α] [Sub α] [Std.TransOrd α] [Zero α] in
/-- Reading ahead changes nothing but what is ahead. -/
lemma refill_fields (model : Model α) (window : Window α) (input : Input) :
    (window.refill model input).1.past = window.past ∧
      (window.refill model input).1.pending = window.pending ∧
      (window.refill model input).1.layers = window.layers := by
  simp only [refill]
  split
  · exact ⟨rfl, rfl, rfl⟩
  · split <;> exact ⟨rfl, rfl, rfl⟩

omit [Add α] [Sub α] [Std.TransOrd α] in
/-- A refill leaves a window sound, also when it fails. -/
lemma Sound.refill {found : Found Unit} (h : window.Sound model)
    (hrefill : window.refill model input = (window', found)) : window'.Sound model := by
  obtain ⟨hpast, hpending, hlayers⟩ := refill_fields model window input
  rw [hrefill] at hpast hpending hlayers
  exact h.of_eq hpast hpending hlayers

/-- **Every state of a run is sound.** -/
lemma sound_of_run (h : Run model history window input) : window.Sound model := by
  induction h with
  | start => exact sound_initial model
  | step _ hrefill _ ih => exact sound_step (ih.refill hrefill)
  | next _ hrefill _ _ ih => exact (ih.refill hrefill).of_eq rfl rfl rfl
  | broken _ hrefill _ ih => exact (ih.refill hrefill).of_eq rfl rfl rfl

end Steps

end Shape

/-! ## Lookups -/

/-- The features of the targets that a hypothesis has chosen for the units before; none at all, when
a place is looked up that a layer does not have, or a layer that is not there. -/
def pathLocations? (distance place : Nat) : List LexicalUnit → List (Layer α) →
    Option (List Location)
  | [], _ => some []
  | _ :: _, [] => none
  | unit :: units, layer :: layers => do
    let hypothesis ← layer[place]?
    let before ← pathLocations? (distance + 1) hypothesis.previous units layers
    return unit.targetLocations (-distance) hypothesis.reading ++ before

/-- The targets that a hypothesis has chosen for so many last units; none at all, when a place is
looked up that a layer does not have, or a layer that is not there. -/
def choices? (place : Nat) : Nat → List (Layer α) → Option (List Nat)
  | 0, _ => some []
  | _ + 1, [] => none
  | count + 1, layer :: layers => do
    let hypothesis ← layer[place]?
    let before ← choices? hypothesis.previous count layers
    return hypothesis.reading :: before

/-- Behind a place that there is, each layer has the place that is looked up next. -/
lemma exists_hypothesis {layer : Layer α} (hnamed : (layer :: layers).IsChain Names)
    (hplace : place < layer.length) : ∃ hypothesis, layer[place]? = some hypothesis ∧
      (layers ≠ [] → hypothesis.previous < (layers.headD []).length) := by
  refine ⟨layer[place], List.getElem?_eq_getElem hplace, fun hne => ?_⟩
  obtain ⟨before, layers, rfl⟩ := List.exists_cons_of_ne_nil hne
  exact (List.isChain_cons_cons.1 hnamed).1 _ (List.getElem_mem hplace)

/-- Following a path never looks up a place that is not there. -/
lemma pathLocations?_eq (hnamed : layers.IsChain Names) (hlength : units.length ≤ layers.length)
    (hplace : layers ≠ [] → place < (layers.headD []).length) :
    pathLocations? distance place units layers
      = some (pathLocations distance place (units.zip layers)) := by
  induction units generalizing distance place layers with
  | nil => rfl
  | cons unit units ih =>
      cases layers with
      | nil => simp at hlength
      | cons layer layers =>
          obtain ⟨hypothesis, hget, hprevious⟩ := exists_hypothesis hnamed (hplace (by simp))
          have hrest : pathLocations? (distance + 1) hypothesis.previous units layers
              = some (pathLocations (distance + 1) hypothesis.previous (units.zip layers)) :=
            ih (List.isChain_cons.1 hnamed).2 (Nat.le_of_succ_le_succ hlength) hprevious
          simp [pathLocations?, pathLocations, hget, hrest]

/-- Tracing choices back never looks up a place that is not there. -/
lemma choices?_eq (hnamed : layers.IsChain Names) (hlength : count ≤ layers.length)
    (hplace : layers ≠ [] → place < (layers.headD []).length) :
    choices? place count layers = some (choices place count layers) := by
  induction count generalizing place layers with
  | zero => simp [choices?, choices]
  | succ count ih =>
      cases layers with
      | nil => simp at hlength
      | cons layer layers =>
          obtain ⟨hypothesis, hget, hprevious⟩ := exists_hypothesis hnamed (hplace (by simp))
          have hrest := ih (List.isChain_cons.1 hnamed).2 (Nat.le_of_succ_le_succ hlength) hprevious
          simp [choices?, choices, hget, hrest]

section Lookups

variable [Zero α] [Add α] [Sub α] [Ord α]

/-- No index is out of range when the current unit is decided. -/
structure InRange (model : Model α) (window : Window α) : Prop where
  /-- The current unit is there, behind those that wait. -/
  current : window.pending.length < window.undecided.length
  /-- From each hypothesis of the last layer the choices for the units before are found. -/
  way_back : ∀ place < (window.layers.headD []).length,
    pathLocations? 1 place (window.before model.lookbehind) window.layers
      = some (pathLocations 1 place ((window.before model.lookbehind).zip window.layers))
  /-- From the best hypothesis for the current unit a choice is found for all that wait. -/
  written : ∀ unit ∈ window.ahead.head?,
    choices? 0 (window.pending.length + 1) (window.nextLayer model unit :: window.layers)
      = some (choices 0 (window.pending.length + 1) (window.nextLayer model unit :: window.layers))

/-- A sound window with a unit ahead has all indices in range. -/
lemma Sound.inRange [Std.TransOrd α] (h : window.Sound model) (hahead : window.ahead ≠ []) :
    window.InRange model where
  current := by
    have hpos := List.length_pos_iff.2 hahead
    simp [undecided, hpos]
  way_back place hplace := by
    refine pathLocations?_eq h.named ?_ fun _ => hplace
    rw [before_eq, h.layers_length]
    simp only [List.length_take, List.length_append]
    omega
  written unit _ := by
    refine choices?_eq (h.isChain_nextLayer unit) ?_ fun _ => ?_
    · rw [List.length_cons, h.layers_length]
      omega
    · exact List.length_pos_iff.2 (nextLayer_ne_nil h.headD_ne_nil)

/-! ## Turns -/

/-- A drain takes no more turns than there is work, and none for what it leaves. -/
lemma length_events_drain {outcome : Outcome α} (houtcome : window.drain model input = outcome) :
    outcome.events.length ≤ window.workLeft input ∧
      (outcome.fault = none →
        outcome.events.length + outcome.rest.length ≤ window.workLeft input) := by
  subst houtcome
  fun_induction drain model window input with
  | case1 => simp
  | case2 window input window' rest hrefill _ =>
      have hwork := refill_workLeft hrefill
      simp only [workLeft, List.length_nil] at hwork ⊢
      omega
  | case3 window input window' rest hrefill hahead hwork hstep ih =>
      obtain ⟨hturns, hdone⟩ := ih
      simp only [Outcome.after, List.length_append, List.length_singleton]
      refine ⟨by omega, fun hfault => ?_⟩
      have hdone := hdone hfault
      omega

/-- When a call comes to the end of a segment no unit is ahead. -/
lemma ahead_drain (h : (window.drain model input).fault = none) :
    (window.drain model input).window.ahead = [] := by
  fun_induction drain model window input with
  | case1 => simp at h
  | case2 _ _ _ _ _ hahead => exact hahead
  | case3 _ _ _ _ _ _ _ _ ih => exact ih h

/-- **A call takes no more turns than its input allows.** -/
lemma length_events_processInput (model : Model α) (flushSegments : Bool) (window : Window α)
    (input : Input) : (window.processInput model flushSegments input).events.length
      ≤ window.ahead.length + 4 * input.length + 1 := by
  fun_induction processInput model flushSegments window input with
  | case1 => simp
  | case2 => simp
  | case3 window item items _ drained fault hfault =>
      have hturns := (length_events_drain (show _ = drained from rfl)).1
      simp only [workLeft, Bool.false_eq_true, if_false] at hturns
      omega
  | case4 window item items _ drained hfault hrest =>
      have hturns := (length_events_drain (show _ = drained from rfl)).1
      simp only [workLeft, Bool.false_eq_true, if_false, List.length_cons] at hturns
      simp only [List.length_append, List.length_cons, List.length_nil]
      omega
  | case5 window item items _ drained n rest hfault hrest =>
      have hturns := (length_events_drain (show _ = drained from rfl)).1
      simp only [workLeft, Bool.false_eq_true, if_false] at hturns
      show drained.events.length ≤ _
      omega
  | case6 window item items _ drained c rest hfault hrest hshorter ih =>
      -- Behind the separator nothing is ahead, so that only the rest of the input counts there.
      have hturns := (length_events_drain (show _ = drained from rfl)).2 hfault
      have hflush : (if flushSegments then [Event.flush] else []).length ≤ 1 := by
        cases flushSegments <;> simp
      rw [show drained.window.ahead = [] from ahead_drain hfault] at ih
      simp only [hrest, workLeft, Bool.false_eq_true, if_false, List.length_cons] at hturns
      simp only [List.length_cons] at hshorter
      simp only [Outcome.after, List.length_append, List.length_cons, List.length_nil] at ih ⊢
      omega

/-- A call that comes to its end leaves nothing of its input. -/
lemma rest_processInput {flushSegments : Bool}
    (h : (window.processInput model flushSegments input).fault = none) :
    (window.processInput model flushSegments input).rest = [] := by
  fun_induction processInput model flushSegments window input with
  | case1 => rfl
  | case2 => simp at h
  | case3 =>
      rename_i hfault
      simp [hfault] at h
  | case4 =>
      rename_i hrest
      exact hrest
  | case5 => simp at h
  | case6 =>
      rename_i ih
      exact ih h

/-- Behind a segment that has been drained stands a separator, or the input ends. -/
lemma atFront_drain (hrun : Run model history window input) (hended : window.ended = false)
    (hfault : (window.drain model input).fault = none) :
    (window.drain model input).rest.AtFront (· = Input.segmentSeparator) := by
  obtain ⟨-, -, -, -, hfound, -⟩ := remaining_drain hrun rfl
  rw [remaining, hended, found, hfault] at hfound
  obtain ⟨-, -, hfront⟩ := (Model.segment_of_segmentUnits (Prod.ext rfl hfound)).exists_text
  exact hfront

/-! ## Every call -/

/-- **Every call returns, and no index is out of range on its way.**

Whatever bytes the calls so far have had, and whether they failed or not, the window is in shape and
the next call begins in a state of the run.  That call takes no more turns than its input allows,
and either comes to the end of its input or stops at a broken sequence in it.

In each state of a run the window is in shape.  The separator that is looked up behind a segment is
there, unless the input ends; and when units are ahead after a refill, the next one is decided with
no index out of range. -/
theorem every_index_in_range [Std.TransOrd α] (model : Model α) :
    (∀ calls window, Called model calls window →
      window.Sound model ∧
      (∀ input, ∃ history, Run model history { window with ended := false } input) ∧
      ∀ flushSegments bytes,
        let outcome := window.process model flushSegments bytes
        outcome.events.length ≤ window.ahead.length + 4 * (Input.ofBytes bytes).length + 1 ∧
        (outcome.fault = none ∧ outcome.rest = [] ∨
          outcome.fault ≠ none ∧ (Input.ofBytes bytes).Broken)) ∧
    ∀ history window input, Run model history window input →
      window.Sound model ∧
      (window.ended = false → (window.drain model input).fault = none →
        (window.drain model input).rest.AtFront (· = Input.segmentSeparator)) ∧
      ∀ window' rest, window.refill model input = (window', .ok () rest) →
        window'.Sound model ∧ (window'.undecided ≠ [] → window'.InRange model) := by
  constructor
  · intro calls window hcalled
    obtain ⟨log, hstands, -⟩ := called_stands hcalled
    refine ⟨(sound_of_run (hstands [])).of_eq rfl rfl rfl, fun input => ⟨_, hstands input⟩, ?_⟩
    intro flushSegments bytes outcome
    refine ⟨length_events_processInput model flushSegments window _, ?_⟩
    cases hfault : outcome.fault with
    | none => exact Or.inl ⟨rfl, rest_processInput hfault⟩
    | some fault => exact Or.inr ⟨by simp, broken_of_processInput hfault⟩
  · intro history window input hrun
    refine ⟨sound_of_run hrun, atFront_drain hrun, fun window' rest hrefill => ?_⟩
    have hsound := (sound_of_run hrun).refill hrefill
    refine ⟨hsound, fun hundecided => hsound.inRange fun hahead => hundecided ?_⟩
    have hrefilled := refilled_refill (underway_of_run hrun) hrefill
    simp [undecided, (hrefilled.done hahead).2, hahead]

/-- A call that is stopped in its third unit leaves the first one waiting and the second one ahead.
The next call takes this window over, and all indices are in range when it decides the second
unit. -/
theorem every_index_in_range_broken :
    let model : Model Int := { lookbehind := 1, lookahead := 1, beam := 2 }
    let failed :=
      Window.initial.process model false (Text.utf8 "^a/b/c$ ^d/e/f$ ^g".toList ++ [0xFF])
    let refilled := refill model { failed.window with ended := false } (.ofText "^i/j$".toList)
    failed.fault = some ⟨18⟩ ∧ failed.window.pending.length = 1 ∧
      failed.window.ahead.length = 1 ∧ failed.window.Sound model ∧
      refilled.2 = .ok () [] ∧ refilled.1.ahead.length = 2 ∧ refilled.1.InRange model := by
  intro model failed refilled
  obtain ⟨hcalls, hruns⟩ := every_index_in_range model
  have hcalled : Called model _ failed.window := Called.initial.call false _
  obtain ⟨hsound, hstands, -⟩ := hcalls _ failed.window hcalled
  obtain ⟨history, hrun⟩ := hstands (.ofText "^i/j$".toList)
  have hread : refilled.2 = .ok () [] := by decide +kernel
  have hinRange : refilled.1.InRange model :=
    ((hruns _ _ _ hrun).2.2 refilled.1 [] (Prod.ext rfl hread)).2 (by decide +kernel)
  exact ⟨by decide +kernel, by decide +kernel, by decide +kernel, hsound, hread, by decide +kernel,
    hinRange⟩

end Lookups

end LexicalSelection.Window
