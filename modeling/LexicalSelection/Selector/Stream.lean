import LexicalSelection.Selector.Window

/-!
# Selecting in a stream

A stream is worked through unit by unit, with as many units read ahead as the model looks at.  Each
segment is written to its end before the separator behind it is taken.

* `Window.refill` — units read ahead.
* `Window.drain` — a segment written to its end.
* `Window.process` — a whole input, with what is written and when it is flushed.
-/

namespace LexicalSelection

/-- A thing that happens to the output. -/
inductive Event where
  /-- A text is written. -/
  | write (text : Text)
  /-- What has been written so far is handed on. -/
  | flush
  deriving DecidableEq, Repr

namespace Event

/-- All that is written. -/
def written : List Event → Text
  | [] => []
  | write text :: events => text ++ written events
  | flush :: events => written events

/-- How many bytes have been written at each flush, `before` of them before the first event. -/
def flushOffsets (before : Nat) : List Event → List Nat
  | [] => []
  | write text :: events => flushOffsets (before + text.utf8.length) events
  | flush :: events => before :: flushOffsets before events

end Event

/-- What a part of an input comes to. -/
structure Outcome (α : Type) where
  /-- What happens to the output. -/
  events : List Event := []
  /-- The window afterwards. -/
  window : Window α
  /-- What is left of the input. -/
  rest : Input
  /-- The broken sequence that reading stopped at. -/
  fault : Option BrokenSequence := none

namespace Outcome

variable {α : Type}

/-- The outcome with events before it. -/
def after (events : List Event) (outcome : Outcome α) : Outcome α :=
  { outcome with events := events ++ outcome.events }

end Outcome

namespace Window

variable {α : Type}

/-! ## Reading ahead -/

/-- Units up to a number of them, or up to the end of the segment: the units, and whether the end
was read. -/
def readAhead (model : Model α) : Nat → Input → List LexicalUnit × Found Bool
  | 0, input => ([], .ok false input)
  | count + 1, input =>
    match model.readUnit input with
    | .error fault rest => ([], .error fault rest)
    | .ok unit rest =>
      if unit.isEnd then ([unit], .ok true rest)
      else
        let (units, found) := readAhead model count rest
        (unit :: units, found)

/-- Is there nothing more to read in the segment? -/
def complete (window : Window α) : Bool :=
  window.ended || window.ahead.getLast?.any LexicalUnit.isEnd

/-- Reads units until enough are ahead for the next decision, or the segment is complete. -/
def refill (model : Model α) (window : Window α) (input : Input) : Window α × Found Unit :=
  if window.complete then (window, .ok () input)
  else
    let (units, found) := readAhead model (model.lookahead + 1 - window.ahead.length) input
    let window := { window with ahead := window.ahead ++ units }
    match found with
    | .ok ended rest => ({ window with ended }, .ok () rest)
    | .error fault rest => (window, .error fault rest)

/-- What is left to do: units to decide, items to read, and the end of the segment to find. -/
def workLeft (window : Window α) (input : Input) : Nat :=
  window.ahead.length + input.length + if window.ended then 0 else 1

/-- Reading ahead takes an item for each unit but one that ends the segment. -/
theorem readAhead_length {model : Model α} {count : Nat} {input rest : Input} {ended : Bool}
    (h : (readAhead model count input).2 = .ok ended rest) :
    (readAhead model count input).1.length + rest.length
      ≤ input.length + if ended then 1 else 0 := by
  induction count generalizing input with
  | zero => simp only [readAhead, EStateM.Result.ok.injEq] at h ⊢; simp [← h]
  | succ count ih =>
    simp only [readAhead] at h ⊢
    split at h
    · simp at h
    · rename_i unit rest' hu
      have hlen := Model.readUnit_length hu
      split at h
      · rename_i hend
        simp only [EStateM.Result.ok.injEq] at h
        obtain ⟨rfl, rfl⟩ := h
        simp only [hend, if_true] at hlen ⊢
        simp only [List.length_cons, List.length_nil]; omega
      · rename_i hend
        have := ih h
        simp only [hend, Bool.false_eq_true, if_false] at hlen ⊢
        simp only [List.length_cons]; omega

/-- Reading ahead leaves no more of the input than there was. -/
theorem readAhead_rest {model : Model α} {count : Nat} {input rest : Input} {ended : Bool}
    (h : (readAhead model count input).2 = .ok ended rest) : rest.length ≤ input.length := by
  induction count generalizing input with
  | zero => simp only [readAhead, EStateM.Result.ok.injEq] at h; simp [← h]
  | succ count ih =>
    simp only [readAhead] at h
    split at h
    · simp at h
    · rename_i unit rest' hu
      have hlen := Model.readUnit_length hu
      split at h
      · simp only [EStateM.Result.ok.injEq] at h
        obtain ⟨-, rfl⟩ := h
        omega
      · have := ih h
        omega

/-- Refilling leaves no more of the input than there was. -/
theorem refill_rest {model : Model α} {window window' : Window α} {input rest : Input}
    (h : window.refill model input = (window', .ok () rest)) : rest.length ≤ input.length := by
  simp only [refill] at h
  split at h
  · simp only [Prod.mk.injEq, EStateM.Result.ok.injEq] at h
    simp [h]
  · split at h
    · rename_i ended rest' hfound
      simp only [Prod.mk.injEq, EStateM.Result.ok.injEq, true_and] at h
      exact h.2 ▸ readAhead_rest hfound
    · simp at h

/-- Refilling leaves no more work than there was. -/
theorem refill_workLeft {model : Model α} {window window' : Window α} {input rest : Input}
    (h : window.refill model input = (window', .ok () rest)) :
    window'.workLeft rest ≤ window.workLeft input := by
  simp only [refill] at h
  split at h
  · simp only [Prod.mk.injEq, EStateM.Result.ok.injEq] at h
    obtain ⟨rfl, -, rfl⟩ := h
    exact Nat.le_refl _
  · rename_i hcomplete
    have hended : window.ended = false := by
      cases hw : window.ended <;> simp_all [complete]
    split at h
    · rename_i ended rest' hfound
      simp only [Prod.mk.injEq, EStateM.Result.ok.injEq, true_and] at h
      obtain ⟨rfl, rfl⟩ := h
      have := readAhead_length hfound
      simp only [workLeft, List.length_append, hended, Bool.false_eq_true, if_false]
      cases ended <;> simp only [Bool.false_eq_true, if_true, if_false] at this ⊢ <;> omega
    · simp at h

/-! ## Segments -/

variable [Zero α] [Add α] [Sub α] [Ord α]

/-- A step takes the first of the units ahead. -/
theorem step_workLeft (model : Model α) {window : Window α} (input : Input)
    (h : window.ahead ≠ []) :
    (window.step model).1.workLeft input < window.workLeft input := by
  obtain ⟨unit, ahead, hahead⟩ := List.exists_cons_of_ne_nil h
  have hlt : ahead.length + input.length < window.ahead.length + input.length := by
    rw [hahead, List.length_cons]
    omega
  simp only [step, hahead]
  split <;> exact Nat.add_lt_add_right hlt _

/-- Decides and writes units until none is ahead, which is at the end of the segment. -/
def drain (model : Model α) (window : Window α) (input : Input) : Outcome α :=
  match h : window.refill model input with
  | (window, .error fault rest) => { window, rest, fault := some fault }
  | (window, .ok () rest) =>
    if hahead : window.ahead = [] then { window, rest }
    else
      have := refill_workLeft h
      have := step_workLeft model rest hahead
      (drain model (window.step model).1 rest).after [.write (window.step model).2]
termination_by window.workLeft input

/-- Draining leaves no more of the input than there was. -/
theorem drain_rest (model : Model α) (window : Window α) (input : Input)
    (h : (window.drain model input).fault = none) :
    (window.drain model input).rest.length ≤ input.length := by
  fun_induction drain model window input with
  | case1 => simp at h
  | case2 window input window' rest hr => exact refill_rest hr
  | case3 window input window' rest hr hahead _ _ ih =>
    have := refill_rest hr
    have := ih (by simpa [Outcome.after] using h)
    simp only [Outcome.after]; omega

/-! ## Inputs -/

/-- Selects in what is left of an input: each segment is drained, and the separator behind it is
written, with a flush where `flushSegments` asks for it.  All is flushed at the end. -/
def processInput (model : Model α) (flushSegments : Bool) (window : Window α) (input : Input) :
    Outcome α :=
  match input with
  | [] => { events := [.flush], window, rest := [] }
  | .broken n :: rest => { window, rest, fault := some ⟨n⟩ }
  | item :: items =>
    let drained := drain model { window with ended := false } (item :: items)
    match hfault : drained.fault, hrest : drained.rest with
    | some _, _ => drained
    | none, [] => { drained with events := drained.events ++ [.flush] }
    | none, .broken n :: rest => { drained with rest, fault := some ⟨n⟩ }
    | none, .char c :: rest =>
      have : rest.length < (item :: items).length := by
        have := drain_rest model { window with ended := false } (item :: items) hfault
        rw [show (drain model { window with ended := false } (item :: items)).rest
          = .char c :: rest from hrest] at this
        exact this
      (processInput model flushSegments drained.window rest).after
        (drained.events ++ .write [c] :: if flushSegments then [.flush] else [])
termination_by input.length
decreasing_by assumption

/-- Selects in an input given by its bytes. -/
def process (model : Model α) (flushSegments : Bool) (window : Window α) (bytes : Bytes) :
    Outcome α :=
  processInput model flushSegments window (Input.ofBytes bytes)

end Window

end LexicalSelection
