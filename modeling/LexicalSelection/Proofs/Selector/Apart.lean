import LexicalSelection.Proofs.Selector.Best
import Mathlib.Data.List.Chain

/-!
# Units that wait alone

When no two units that leave a choice stand next to each other, each of them waits for a single
unit, and the beam drops the targets that are worst by what the unit gains itself.  Which ones these
are has nothing to do with the other choices, if a commit seals them off.

* `Apart` — no two units that leave a choice stand next to each other.
* `Model.sifted` — the targets of a unit that a beam keeps behind some decisions.
* `Model.Sifted` — every choice is one that the beam keeps.
* **`layer_of_run`** — the layer for a unit that waits are its sifted targets.
* **`sifted_of_run`**, **`best_of_apart`** — the decisions of a run are choices of this kind, and
  they gain as much as any others of this kind.
-/

namespace LexicalSelection

/-- No two units that leave a choice stand next to each other. -/
def Apart (units : List LexicalUnit) : Prop :=
  units.IsChain fun unit next => unit.ambiguous = false ∨ next.ambiguous = false

instance (units : List LexicalUnit) : Decidable (Apart units) :=
  inferInstanceAs (Decidable (units.IsChain _))

/-- Of units that leave a choice there is no more than one in a row. -/
lemma Apart.length_le {units run : List LexicalUnit} (h : Apart units) (hrun : run <:+: units)
    (hambiguous : ∀ unit ∈ run, unit.ambiguous = true) : run.length ≤ 1 := by
  match run, h.infix hrun with
  | [], _ => simp
  | [_], _ => simp
  | unit :: next :: _, hchain =>
      obtain ⟨hpair, -⟩ := List.isChain_cons_cons.1 hchain
      simp [hambiguous unit, hambiguous next] at hpair

namespace Model

variable {α : Type} {model : Model α} {unit : LexicalUnit} {later : List LexicalUnit}
  {earlier earlier' : List Decision}

section Order

variable [AddCommGroup α] [LinearOrder α]

/-- The targets of a unit behind some decisions, the best one first: all of them, or as many as the
beam takes. -/
def sifted (model : Model α) (earlier : List Decision) (unit : LexicalUnit)
    (later : List LexicalUnit) : Layer α :=
  let layer := Ascending.ofList <| (List.range (max 1 unit.targets.length)).map fun reading =>
    ⟨-model.gain [(unit, reading)] earlier later, reading, 0⟩
  if model.beam = 0 then layer else layer.take model.beam

/-- Each choice for a unit that leaves one is among those that the beam keeps. -/
def Sifted (model : Model α) : List Decision → List LexicalUnit → Prop
  | [], _ => True
  | decision :: earlier, later =>
    (decision.1.ambiguous = true →
      ∃ hypothesis ∈ model.sifted earlier decision.1 later, hypothesis.reading = decision.2) ∧
    model.Sifted earlier (decision.1 :: later)

/-- Targets are sifted by what they gain. -/
lemma sifted_congr {later' : List LexicalUnit}
    (h : ∀ reading, Decision.Valid (unit, reading) →
      model.gain [(unit, reading)] earlier later = model.gain [(unit, reading)] earlier' later') :
    model.sifted earlier unit later = model.sifted earlier' unit later' := by
  have hmap : ((List.range (max 1 unit.targets.length)).map fun reading =>
      (⟨-model.gain [(unit, reading)] earlier later, reading, 0⟩ : Hypothesis α))
        = (List.range (max 1 unit.targets.length)).map fun reading =>
          ⟨-model.gain [(unit, reading)] earlier' later', reading, 0⟩ :=
    List.map_congr_left fun reading hreading => by rw [h reading (List.mem_range.1 hreading)]
  rw [sifted, sifted, hmap]

/-- Units that come to be known late change nothing. -/
lemma sifted_later (h : model.Settled (unit :: later)) (more : List LexicalUnit) :
    model.sifted earlier unit (later ++ more) = model.sifted earlier unit later :=
  sifted_congr fun _ _ => gain_later earlier (by simpa using h) more

lemma length_sifted_le (hbeam : model.beam ≠ 0) :
    (model.sifted earlier unit later).length ≤ model.beam := by
  rw [sifted]
  simp [hbeam]

/-- A wider beam keeps what a beam keeps. -/
lemma mem_sifted_of_le {beam wide : Nat} (hbeam : 0 < beam) (hle : beam ≤ wide)
    {hypothesis : Hypothesis α}
    (h : hypothesis ∈ ({ model with beam } : Model α).sifted earlier unit later) :
    hypothesis ∈ ({ model with beam := wide } : Model α).sifted earlier unit later := by
  simp only [sifted, gain_withBeam, if_neg hbeam.ne', if_neg (hbeam.trans_le hle).ne'] at h ⊢
  exact (List.take_prefix_take_left hle).subset h

lemma Sifted.of_le {beam wide : Nat} (hbeam : 0 < beam) (hle : beam ≤ wide)
    {decisions : List Decision} (h : ({ model with beam } : Model α).Sifted decisions later) :
    ({ model with beam := wide } : Model α).Sifted decisions later := by
  induction decisions generalizing later with
  | nil => trivial
  | cons decision earlier ih =>
      refine ⟨fun hambiguous => ?_, ih h.2⟩
      obtain ⟨hypothesis, hmem, hreading⟩ := h.1 hambiguous
      exact ⟨hypothesis, mem_sifted_of_le hbeam hle hmem, hreading⟩

lemma hereditary_sifted (model : Model α) : Window.Hereditary model.Sifted := by
  intro front back later h
  induction front generalizing later with
  | nil => exact h
  | cons decision front ih => simpa using ih _ h.2

end Order

end Model

namespace Window

variable {α : Type} {model : Model α} {window window' : Window α} {input rest : Input}
  {unit : LexicalUnit} {units ahead : List LexicalUnit} {layers : List (Layer α)}
  {history : List Decision}

/-! ## Layers of a unit that waits alone -/

lemma layers_of_linked_nil [Zero α] {count : Nat} (h : Linked count [] layers) :
    layers = seedLayers count := by
  cases h
  rfl

lemma chain_singleton {place : Nat} {hypothesis : Hypothesis α}
    (h : (layers.headD [])[place]? = some hypothesis) :
    chain place [unit] layers = [(unit, hypothesis.reading)] := by
  cases layers with
  | nil => simp at h
  | cons layer layers => exact chain_cons h

variable [AddCommGroup α] [LinearOrder α]

/-- Behind a commit the next layer has the sifted targets of the current unit. -/
lemma nextLayer_eq_sifted (hlinked : window.IsLinked) (hpending : window.pending = [])
    (hpast : window.past = (history.take model.lookbehind).map keepChoice)
    (hahead : window.ahead = unit :: ahead)
    (hthrough : LexicalUnit.throughEnd (unit :: ahead) = unit :: ahead) :
    window.nextLayer model unit = model.sifted history unit ahead := by
  have hlayers : window.layers = seedLayers window.past.length :=
    layers_of_linked_nil (hpending ▸ hlinked)
  have hall : window.allHypotheses model unit
      = Ascending.ofList ((List.range (max 1 unit.targets.length)).map fun reading =>
        ⟨-model.gain [(unit, reading)] history ahead, reading, 0⟩) := by
    have hhead : (window.layers.headD []).zipIdx = [(.seed, 0)] := by
      rw [hlayers]
      rfl
    simp only [allHypotheses, hhead, List.map_singleton, ← List.map_eq_flatMap]
    refine congrArg _ (List.map_congr_left fun reading hreading => ?_)
    rw [activeLocations_eq hlinked hlinked.length_pos hpast (hthrough.trans hahead.symm)
      (List.mem_range.1 hreading), hpending, chain_nil]
    simp [Model.gain, Hypothesis.seed]
  rw [nextLayer, hall, Model.sifted]

/-- Of a stream in which no two units that leave a choice stand next to each other one waits at
most. -/
lemma length_pending_le (hrun : Run model history window input) {more : List LexicalUnit}
    (hapart : Apart (stream history window more)) : window.pending.length ≤ 1 := by
  have hpart : window.pending.reverse <:+: stream history window more :=
    ⟨(history.map Prod.fst).reverse, window.ahead ++ more, by simp [stream, undecided]⟩
  simpa using hapart.length_le hpart (by simpa using waiting_of_run hrun)

/-- **The layer for a unit that waits are its sifted targets.** -/
lemma layer_of_run (hrun : Run model history window input) {more : List LexicalUnit}
    (hapart : Apart (stream history window more)) :
    ∀ unit ∈ window.pending.head?,
      window.layers.headD [] = model.sifted history unit window.ahead := by
  induction hrun generalizing more with
  | start => simp [initial]
  | @step history _ window' _ _ hrun hrefill hne ih =>
      have halone := length_pending_le (hrun.step hrefill hne) hapart
      have hrefilled := refilled_refill (underway_of_run hrun) hrefill
      have hthrough := hrefilled.underway.throughEnd_ahead hne
      have hpast := hrefilled.past_eq.trans (past_of_run hrun)
      obtain ⟨unit, ahead, hahead⟩ := List.exists_cons_of_ne_nil hne
      cases hambiguous : unit.ambiguous with
      | true =>
          rw [pending_of_ambiguous model hahead hambiguous] at halone ⊢
          have hpending : window'.pending = [] :=
            List.length_eq_zero_iff.1 (Nat.le_zero.1 (Nat.le_of_succ_le_succ halone))
          rw [decided_of_ambiguous model hahead hambiguous]
          rintro _ ⟨⟩
          simp only [step, hahead, hambiguous, if_true]
          exact nextLayer_eq_sifted hrefilled.underway.linked hpending hpast hahead
            (hahead ▸ hthrough)
      | false => simp [step, hahead, hambiguous, commit]
  | next hrun hrefill hahead _ _ =>
      have hdone := (refilled_refill (underway_of_run hrun) hrefill).done hahead
      simp [hdone.2]
  | @broken history window _ _ _ _ hrun hrefill _ ih =>
      obtain ⟨units, -, -, rfl⟩ := grown_of_refill_error (underway_of_run hrun) hrefill
      intro unit hunit
      have hsettled : model.Settled (unit :: window.ahead) :=
        (reckoned_of_run hrun).settled unit (by rw [List.head?_append]; simp_all)
      have hstream : stream history window (units ++ more)
          = stream history { window with ahead := window.ahead ++ units, ended := false } more := by
        simp [stream, undecided]
      exact (ih (hstream ▸ hapart) unit hunit).trans (Model.sifted_later hsettled units).symm

/-- In front of the next unit nothing waits, or one unit with its sifted targets. -/
lemma waits_alone (hrun : Run model history window input)
    (hrefill : window.refill model input = (window', .ok () rest)) {more : List LexicalUnit}
    (hapart : Apart (stream history window' more)) :
    window'.pending = [] ∧ window'.layers = seedLayers window'.past.length ∨
      ∃ unit, window'.pending = [unit] ∧
        window'.layers.headD [] = model.sifted history unit (window'.ahead ++ more) := by
  have hrefilled := refilled_refill (underway_of_run hrun) hrefill
  obtain ⟨read, hstream⟩ := hrefilled.exists_stream
  rw [← hstream] at hapart
  have halone := length_pending_le hrun hapart
  have hlayer := layer_of_run hrun hapart
  rw [← hrefilled.pending_eq] at halone hlayer
  rw [← hrefilled.layers_eq] at hlayer
  match hpending : window'.pending, halone with
  | [], _ => exact Or.inl ⟨rfl, layers_of_linked_nil (hpending ▸ hrefilled.underway.linked)⟩
  | [unit], _ =>
      refine Or.inr ⟨unit, rfl, ?_⟩
      have hsettled : model.Settled (unit :: window.ahead) :=
        (reckoned_of_run hrun).settled unit (by rw [← hrefilled.pending_eq, hpending]; rfl)
      rw [hlayer unit (by rw [hpending]; rfl)]
      obtain ⟨units, ended, rfl⟩ := hrefilled.grown
      rw [List.append_assoc]
      exact (Model.sifted_later hsettled _).symm

/-- A commit writes choices that the beam keeps. -/
lemma sifted_decided (hrun : Run model history window input)
    (hrefill : window.refill model input = (window', .ok () rest))
    (hahead : window'.ahead = unit :: ahead) (hsole : unit.ambiguous = false)
    {more : List LexicalUnit} (hapart : Apart (stream history window' more))
    (h : model.Sifted history (window'.undecided ++ more)) :
    model.Sifted (window'.decided model ++ history) (ahead ++ more) := by
  have hlinked := (refilled_refill (underway_of_run hrun) hrefill).underway.linked
  have hne : window'.nextLayer model unit ≠ [] := nextLayer_ne_nil hlinked.headD_ne_nil
  obtain ⟨best, others, hlayer⟩ := List.exists_cons_of_ne_nil hne
  have hdecided : window'.decided model
      = (unit, best.reading) :: chain best.previous window'.pending window'.layers := by
    rw [decided_of_sole model hahead hsole, hlayer]
    exact chain_cons rfl
  rw [hdecided, List.cons_append]
  refine ⟨fun hambiguous => by simp [hsole] at hambiguous, ?_⟩
  rcases waits_alone hrun hrefill hapart with ⟨hpending, -⟩ | ⟨first, hpending, hfirst⟩
  · rw [hpending, chain_nil, List.nil_append]
    simpa [undecided, hpending, hahead] using h
  · have hbest : best ∈ window'.nextLayer model unit := hlayer ▸ List.mem_cons_self
    obtain ⟨hypothesis, hget⟩ : ∃ hypothesis,
        (window'.layers.headD [])[best.previous]? = some hypothesis :=
      ⟨_, List.getElem?_eq_getElem (mem_allHypotheses (mem_nextLayer hbest)).2⟩
    have hmem := List.mem_of_getElem? hget
    rw [hfirst, hahead] at hmem
    rw [hpending, chain_singleton hget]
    refine ⟨fun _ => ⟨hypothesis, hmem, rfl⟩, ?_⟩
    simpa [undecided, hpending, hahead] using h

/-- **The decisions of a run are choices that the beam keeps**, when each unit waits alone. -/
lemma sifted_of_run (hrun : Run model history window input) {more : List LexicalUnit}
    (hapart : Apart (stream history window more)) :
    model.Sifted history (window.undecided ++ more) := by
  refine holds_of_commits (fun _ => trivial) ?_ hrun rfl
  intro history' window₁ window₂ input' rest unit ahead more' hrun' hrefill hahead hsole hstream
    hsifted
  exact sifted_decided hrun' hrefill hahead hsole (hstream ▸ hapart) hsifted

/-- A choice that the beam keeps for the units that wait is the chain of some hypothesis, whatever
was chosen before it. -/
lemma exists_chain_of_sifted (hrun : Run model history window input)
    (hrefill : window.refill model input = (window', .ok () rest)) {more : List LexicalUnit}
    (hapart : Apart (stream history window' more))
    (hsealed : model.Sealed (stream history window' more)) {waiting back : List Decision}
    (hwaiting : Assigns window'.pending waiting) (hback : Assigns (history.map Prod.fst) back)
    (hkind : model.Sifted (waiting ++ back) (window'.ahead ++ more)) :
    ∃ previous, previous < (window'.layers.headD []).length ∧
      chain previous window'.pending window'.layers = waiting := by
  have hrefilled := refilled_refill (underway_of_run hrun) hrefill
  rcases waits_alone hrun hrefill hapart with ⟨hpending, -⟩ | ⟨first, hpending, hfirst⟩
  · rw [hpending] at hwaiting ⊢
    exact ⟨0, hrefilled.underway.linked.length_pos, (List.map_eq_nil_iff.1 hwaiting.1).symm⟩
  · rw [hpending] at hwaiting ⊢
    have hambiguous : first.ambiguous = true := by
      refine waiting_of_run hrun first ?_
      rw [← hrefilled.pending_eq, hpending]
      exact List.mem_singleton_self first
    obtain ⟨⟨chosen, reading⟩, others, rfl, hchosen, hothers⟩ := List.map_eq_cons_iff.1 hwaiting.1
    obtain rfl : first = chosen := hchosen.symm
    obtain rfl := List.map_eq_nil_iff.1 hothers
    obtain ⟨hypothesis, hmem, rfl⟩ := hkind.1 hambiguous
    have hstream : stream history window' more
        = (history.map Prod.fst).reverse ++ ([first] ++ (window'.ahead ++ more)) := by
      rw [stream, undecided, hpending]
      simp
    have hsame : model.sifted back first (window'.ahead ++ more)
        = model.sifted history first (window'.ahead ++ more) :=
      Model.sifted_congr fun reading hreading =>
        gain_eq_of_sealed hrun (hstream ▸ hsealed) ⟨rfl, by simpa using hreading⟩ hback
    change hypothesis ∈ model.sifted back first _ at hmem
    rw [hsame, ← hfirst] at hmem
    obtain ⟨previous, hget⟩ := List.getElem?_of_mem hmem
    exact ⟨previous, (List.getElem?_eq_some_iff.1 hget).1, chain_singleton hget⟩

/-- The beam drops nothing for a unit behind one that waits alone, or behind a commit. -/
lemma kept_of_waits_alone (hrun : Run model history window input)
    (hrefill : window.refill model input = (window', .ok () rest)) (hsole : unit.ambiguous = false)
    {more : List LexicalUnit} (hapart : Apart (stream history window' more)) :
    window'.nextLayer model unit = window'.allHypotheses model unit := by
  refine kept_of_length (or_iff_not_imp_left.2 fun hbeam => ?_)
  have hone : unit.targets.length ≤ 1 := by simpa [LexicalUnit.ambiguous] using hsole
  have hlength : (window'.layers.headD []).length ≤ model.beam := by
    rcases waits_alone hrun hrefill hapart with ⟨-, hlayers⟩ | ⟨first, -, hfirst⟩
    · rw [hlayers]
      exact Nat.one_le_iff_ne_zero.2 hbeam
    · rw [hfirst]
      exact Model.length_sifted_le hbeam
  refine length_allHypotheses_le.trans ?_
  rwa [Nat.max_eq_left hone, one_mul]

variable [IsOrderedAddMonoid α]

/-- **The decisions of a run are the best of the choices that the beam keeps**, when each unit waits
alone and choices before a commit are sealed off. -/
lemma best_of_apart (hrun : Run model history window input) {more : List LexicalUnit}
    (hapart : Apart (stream history window more))
    (hsealed : model.Sealed (stream history window more)) :
    Best model.Sifted model history (window.undecided ++ more) := by
  refine best_of_commits (Model.hereditary_sifted model) ?_ hrun rfl
  intro history' window₁ window₂ input' rest unit ahead more' hrun' hrefill hahead hsole hstream
  rw [← hstream] at hapart hsealed
  have hne : window₂.ahead ≠ [] := by simp [hahead]
  have hrefilled := refilled_refill (underway_of_run hrun') hrefill
  have hreckoned := (reckoned_of_run hrun').refilled hrefilled
  have hsettled := hrefilled.settled hne
  have hthrough := hrefilled.underway.throughEnd_ahead hne
  rw [hahead] at hsettled hthrough
  have hcosts := costed_nextLayer hrefilled.underway.linked hreckoned.past hahead hthrough
    hreckoned.costs
  have hunits : stream history' window₂ more' = (history'.map Prod.fst).reverse
      ++ ((unit :: window₂.pending).reverse ++ (ahead ++ more')) := by
    simp [stream, undecided, hahead]
  intro front back hfront hback hkind
  rw [gain_eq_of_sealed hrun' (hunits ▸ hsealed) (by rwa [List.reverse_reverse]) hback]
  -- The choice is a chain, so the first hypothesis gains as much.
  obtain ⟨⟨chosen, reading⟩, waiting, rfl, hchosen, hwaiting⟩ := List.map_eq_cons_iff.1 hfront.1
  obtain rfl : unit = chosen := hchosen.symm
  obtain ⟨hreading, hvalid⟩ := List.forall_mem_cons.1 hfront.2
  have hwaitingKind : model.Sifted (waiting ++ back) (window₂.ahead ++ more') := by
    rw [hahead]
    exact hkind.2
  obtain ⟨previous, hprevious, rfl⟩ := exists_chain_of_sifted hrun' hrefill hapart hsealed
    ⟨hwaiting, hvalid⟩ hback hwaitingKind
  obtain ⟨place, hplace, hchain⟩ := exists_place
    (kept_of_waits_alone hrun' hrefill hsole hapart) hreading hprevious
  have hlast : ∀ place, ∀ decision ∈ (chain place (unit :: window₂.pending)
      (window₂.nextLayer model unit :: window₂.layers)).head?,
        model.Settled (decision.1 :: ahead) := by
    intro place decision hdecision
    obtain rfl := Option.some.inj (head?_chain hdecision)
    exact hsettled
  rw [← hchain, Model.gain_later _ (hlast place), Model.gain_later _ (hlast 0)]
  exact gain_chain_le hcosts hplace

end Window

end LexicalSelection
