import LexicalSelection.Proofs.Selector.Calls
import LexicalSelection.Proofs.Selector.Splitting

/-!
# Selectors that read alike

When units are decided depends on the units alone: a unit is taken up when enough others have been
read behind it, and those that wait are written when a unit comes that leaves no choice.  So
selectors whose models read the same units go through an input in step, whatever they prefer and
however many hypotheses they keep.

* `Model.ReadsAlike` — two models read the same units, and as many ahead.
* `Alongside` — two windows hold the same units.
* **`Alongside.processInput`** — a call leaves two such windows so, and comes to the same end.
* **`exists_histories`** — two fresh selectors decide the same units of an input.
-/

namespace LexicalSelection

namespace Model

variable {α : Type} {model model' : Model α}

/-- The two models read the same units, and as many ahead. -/
structure ReadsAlike (model model' : Model α) : Prop where
  readUnit : ∀ input, model'.readUnit input = model.readUnit input
  lookahead : model'.lookahead = model.lookahead

lemma ReadsAlike.readAhead_eq (h : ReadsAlike model model') (count : Nat) (input : Input) :
    Window.readAhead model' count input = Window.readAhead model count input := by
  induction count generalizing input with
  | zero => rfl
  | succ count ih => simp only [Window.readAhead, h.readUnit, ih]

lemma ReadsAlike.segmentUnits_eq (h : ReadsAlike model model') (input : Input) :
    model'.segmentUnits input = model.segmentUnits input := by
  fun_induction segmentUnits model input with
  | case1 input fault rest hread =>
      exact segmentUnits_of_error ((h.readUnit input).trans hread)
  | case2 input unit rest hread hend =>
      exact segmentUnits_of_end ((h.readUnit input).trans hread) hend
  | case3 input unit rest hread hopen _ ih =>
      rw [segmentUnits_of_unit ((h.readUnit input).trans hread) (by simpa using hopen), ih]

lemma ReadsAlike.readableUnits_eq (h : ReadsAlike model model') (input : Input) :
    model'.readableUnits input = model.readableUnits input := by
  fun_induction readableUnits model input with
  | case1 => simp [readableUnits]
  | case2 item items units c rest hsegment _ ih =>
      rw [readableUnits_of_separator (List.cons_ne_nil item items)
        ((h.segmentUnits_eq _).trans hsegment), ih]
  | case3 item items units found hlast hsegment =>
      exact readableUnits_of_last (List.cons_ne_nil item items)
        ((h.segmentUnits_eq _).trans hsegment) hlast

end Model

namespace Window

variable {α : Type} {model model' : Model α} {window window' refilled : Window α}
  {input rest : Input}
  {flushSegments : Bool} {found : Found Unit}

/-- The two windows hold the same units that have not been written. -/
structure Alongside (window window' : Window α) : Prop where
  pending : window'.pending = window.pending
  ahead : window'.ahead = window.ahead
  ended : window'.ended = window.ended

lemma Alongside.undecided_eq (h : Alongside window window') :
    window'.undecided = window.undecided := by
  rw [undecided, undecided, h.pending, h.ahead]

/-- At the beginning of a segment they do as well. -/
lemma Alongside.next (h : Alongside window window') :
    Alongside { window with ended := false } { window' with ended := false } :=
  ⟨h.pending, h.ahead, rfl⟩

/-! ## Segments -/

lemma Alongside.refill (h : Alongside window window') (hmodels : model.ReadsAlike model')
    (hrefill : window.refill model input = (refilled, found)) :
    ∃ refilled', window'.refill model' input = (refilled', found) ∧
      Alongside refilled refilled' := by
  have hcomplete : window'.complete = window.complete := by
    rw [complete, complete, h.ended, h.ahead]
  obtain ⟨hfound, hrefilled⟩ :
      (window'.refill model' input).2 = (window.refill model input).2 ∧
        Alongside (window.refill model input).1 (window'.refill model' input).1 := by
    simp only [Window.refill, hcomplete, hmodels.readAhead_eq, hmodels.lookahead, h.ahead]
    split
    · exact ⟨rfl, h⟩
    · split
      · exact ⟨rfl, h.pending, rfl, rfl⟩
      · exact ⟨rfl, h.pending, rfl, h.ended⟩
  rw [hrefill] at hfound hrefilled
  exact ⟨_, Prod.ext rfl hfound, hrefilled⟩

variable [Zero α] [Add α] [Sub α] [Ord α]

lemma Alongside.step (h : Alongside window window') :
    Alongside (window.step model).1 (window'.step model').1 := by
  cases hahead : window.ahead with
  | nil => simpa [Window.step, hahead, h.ahead] using h
  | cons unit ahead =>
      simp only [Window.step, hahead, h.ahead]
      split
      · exact ⟨by rw [h.pending], rfl, h.ended⟩
      · exact ⟨rfl, rfl, h.ended⟩

/-- Draining two such windows comes to the same end. -/
lemma Alongside.drain (h : Alongside window window') (hmodels : model.ReadsAlike model')
    (input : Input) :
    Alongside (window.drain model input).window (window'.drain model' input).window ∧
      (window'.drain model' input).rest = (window.drain model input).rest ∧
      (window'.drain model' input).fault = (window.drain model input).fault := by
  fun_induction Window.drain model window input generalizing window' with
  | case1 window input refilled fault rest hrefill =>
      obtain ⟨refilled', hrefill', hrefilled⟩ := h.refill hmodels hrefill
      rw [drain_of_fault hrefill']
      exact ⟨hrefilled, rfl, rfl⟩
  | case2 window input refilled rest hrefill hahead =>
      obtain ⟨refilled', hrefill', hrefilled⟩ := h.refill hmodels hrefill
      rw [drain_of_done hrefill' (hrefilled.ahead.trans hahead)]
      exact ⟨hrefilled, rfl, rfl⟩
  | case3 window input refilled rest hrefill hahead _ _ ih =>
      obtain ⟨refilled', hrefill', hrefilled⟩ := h.refill hmodels hrefill
      rw [drain_of_step hrefill' (hrefilled.ahead ▸ hahead)]
      exact ih hrefilled.step

/-! ## Calls -/

/-- **A call leaves two such windows so, and comes to the same end.** -/
lemma Alongside.processInput (h : Alongside window window') (hmodels : model.ReadsAlike model')
    (flushSegments : Bool) (input : Input) :
    Alongside (window.processInput model flushSegments input).window
        (window'.processInput model' flushSegments input).window ∧
      (window'.processInput model' flushSegments input).fault
        = (window.processInput model flushSegments input).fault := by
  fun_induction Window.processInput model flushSegments window input generalizing window' with
  | case1 window => exact ⟨by simpa [Window.processInput] using h, by simp [Window.processInput]⟩
  | case2 window n rest =>
      exact ⟨by simpa [Window.processInput] using h, by simp [Window.processInput]⟩
  | case3 =>
      rename_i window item items hitem drained fault hfault
      obtain ⟨hwindow, -, hfault'⟩ := h.next.drain hmodels (item :: items)
      rw [processInput_of_drain hitem rfl]
      simp only [hfault'.trans hfault]
      exact ⟨hwindow, hfault.symm⟩
  | case4 =>
      rename_i window item items hitem drained hfault hrest
      obtain ⟨hwindow, hrest', hfault'⟩ := h.next.drain hmodels (item :: items)
      rw [processInput_of_drain hitem rfl]
      simp only [hfault'.trans hfault, hrest'.trans hrest]
      exact ⟨hwindow, hfault.symm⟩
  | case5 =>
      rename_i window item items hitem drained n rest hfault hrest
      obtain ⟨hwindow, hrest', hfault'⟩ := h.next.drain hmodels (item :: items)
      rw [processInput_of_drain hitem rfl]
      simp only [hfault'.trans hfault, hrest'.trans hrest]
      exact ⟨hwindow, trivial⟩
  | case6 =>
      rename_i window item items hitem drained c rest hfault hrest _ ih
      obtain ⟨hwindow, hrest', hfault'⟩ := h.next.drain hmodels (item :: items)
      rw [processInput_of_drain hitem rfl]
      simp only [hfault'.trans hfault, hrest'.trans hrest]
      exact ih hwindow

/-- What a fresh selector has decided, and what it has left, are the units of its input. -/
lemma exists_history (model : Model α) (flushSegments : Bool) (input : Input) :
    let window := (Window.initial.processInput model flushSegments input).window
    ∃ history, Stands model history window ∧
      (history.map Prod.fst).reverse ++ window.undecided = model.readableUnits input := by
  intro window
  have hinitial : Stands model [] .initial := rests_initial.run
  obtain ⟨log, hstands, -, hunits⟩ := processInput_accounts hinitial
    (show Window.initial.processInput model flushSegments input = _ from rfl)
  refine ⟨log.reduceOption.reverse, by simpa using hstands, ?_⟩
  rw [List.map_reverse, List.reverse_reverse, hunits]
  rfl

/-- **Two fresh selectors decide the same units of an input**, when their models read alike, and
leave the same units in their windows. -/
lemma exists_histories (hmodels : model.ReadsAlike model') (flushSegments : Bool) (input : Input) :
    let window := (Window.initial.processInput model flushSegments input).window
    let window' := (Window.initial.processInput model' flushSegments input).window
    ∃ history history', Stands model history window ∧ Stands model' history' window' ∧
      history'.map Prod.fst = history.map Prod.fst ∧ window'.undecided = window.undecided ∧
      (history.map Prod.fst).reverse ++ window.undecided = model.readableUnits input := by
  intro window window'
  obtain ⟨history, hstands, hunits⟩ := exists_history model flushSegments input
  obtain ⟨history', hstands', hunits'⟩ := exists_history model' flushSegments input
  have hinitial : Alongside (.initial : Window α) .initial := ⟨rfl, rfl, rfl⟩
  have hundecided : window'.undecided = window.undecided :=
    (hinitial.processInput hmodels flushSegments input).1.undecided_eq
  refine ⟨history, history', hstands, hstands', ?_, hundecided, hunits⟩
  rw [hmodels.readableUnits_eq, hundecided, ← hunits] at hunits'
  exact List.reverse_injective (List.append_cancel_right hunits')

end Window

end LexicalSelection
