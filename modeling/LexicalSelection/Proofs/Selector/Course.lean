import LexicalSelection.Proofs.Selector.Run

/-!
# A segment from its beginning

A selector that has seen nothing takes up the first segment of an input.  Reading ahead does not
fail there, and at any time each unit of the segment has been decided, waits, is ahead, or has not
been read.

* `Divided` — the units of a segment are those decided, those in the window and those unread.
* **`Divided.exists_refill`** — reading ahead in a segment comes to its next units.
* `Course` — a state on the way through the segment, with the decisions so far.
* **`divided_of_course`** — the units of the segment stay the same on the way.
* **`drain_course`** — draining a window goes to the end of the way, and writes its decisions.
* **`processInput_of_segment`** — so does a call on an input of one segment.
-/

namespace LexicalSelection

namespace Model

variable {α : Type} {model : Model α} {units : List LexicalUnit} {input rest : Input}

/-- A segment is text, and goes to the end of the input or to a separator. -/
lemma Segment.exists_text (h : model.Segment input units rest) :
    ∃ front, input = .ofText front ++ rest ∧ rest.AtFront (· = Input.segmentSeparator) := by
  induction h with
  | ending h hend =>
      obtain ⟨unit, hread, rfl⟩ := Input.map_eq_ok.1 h
      obtain ⟨closed, hinput, hfront⟩ := LexicalUnit.spelling_of_read hread
      refine ⟨_, hinput, hfront (Or.inl ?_)⟩
      simpa [annotateUnit, LexicalUnit.isEnd] using hend
  | unit h _ _ ih =>
      obtain ⟨unit, hread, rfl⟩ := Input.map_eq_ok.1 h
      obtain ⟨closed, hinput, -⟩ := LexicalUnit.spelling_of_read hread
      obtain ⟨front, hbehind, hfront⟩ := ih
      refine ⟨unit.spelling closed ++ front, ?_, hfront⟩
      rw [hinput, hbehind, Input.ofText_append, List.append_assoc]

/-- What stands behind a segment is a separator. -/
lemma Segment.separator {item : Item} (h : model.Segment input units (item :: rest)) :
    item = .char Input.segmentSeparator := by
  obtain ⟨-, -, hend | ⟨c, behind, hitem, rfl⟩⟩ := h.exists_text
  · cases hend
  · exact List.head_eq_of_cons_eq hitem

/-- An input without separators is one segment. -/
lemma Segment.rest_eq_nil (h : model.Segment input units rest)
    (hnone : .char Input.segmentSeparator ∉ input) : rest = [] := by
  obtain ⟨front, rfl, rfl | ⟨c, behind, rfl, rfl⟩⟩ := h.exists_text
  · rfl
  · exact absurd (List.mem_append_right _ List.mem_cons_self) hnone

lemma Segment.endsBare (h : model.Segment input units rest) : LexicalUnit.EndsBare units := by
  induction h with
  | @ending _ _ last h hend =>
      intro unit hunit
      obtain rfl := List.mem_singleton.1 hunit
      exact targets_of_readUnit h
  | unit _ hopen _ ih => exact List.forall_mem_cons.2 ⟨by simp [hopen], ih⟩

lemma readUnit_broken (n : Nat) (rest : Input) :
    model.readUnit (.broken n :: rest) = .error ⟨n⟩ rest := by
  simp [readUnit, LexicalUnit.read, Input.readBlank, Found.map]

/-- At the end of an input the end of a segment is read, which is written as nothing. -/
lemma Segment.of_nil (h : model.Segment [] units rest) :
    ∃ last, units = [last] ∧ ∀ index, last.write index false true = [] := by
  have hread : model.readUnit [] = .ok (model.annotateUnit {}) [] := by
    simp [readUnit, LexicalUnit.read, Input.readBlank, Found.map]
  cases h with
  | ending h _ =>
      rw [hread] at h
      obtain ⟨rfl, -⟩ := EStateM.Result.ok.inj h
      exact ⟨_, rfl, fun _ => rfl⟩
  | unit h hopen _ =>
      rw [hread] at h
      obtain ⟨rfl, -⟩ := EStateM.Result.ok.inj h
      cases hopen

end Model

namespace Window

variable {α : Type} {model : Model α} {window window' : Window α}
  {text input rest behind : Input} {units : List LexicalUnit} {history : List Decision}

/-! ## Reading ahead in a segment -/

lemma readAhead_of_segment (h : model.Segment input units behind) (count : Nat) :
    ∃ read unread ended rest, readAhead model count input = (read, .ok ended rest) ∧
      units = read ++ unread ∧
      if ended then unread = [] ∧ behind = rest else model.Segment rest unread behind := by
  induction count generalizing input units with
  | zero => exact ⟨[], units, false, input, rfl, rfl, h⟩
  | succ count ih =>
      cases h with
      | @ending _ _ unit hread hend =>
          exact ⟨[unit], [], true, behind, by simp [readAhead, hread, hend]⟩
      | @unit _ _ _ unit _ hread hopen hrest =>
          obtain ⟨read, unread, ended, rest, hfound, rfl, hunread⟩ := ih hrest
          exact ⟨unit :: read, unread, ended, rest, by simp [readAhead, hread, hopen, hfound], rfl,
            hunread⟩

variable [Zero α]

/-- The units of a segment, divided among the decisions that have been made, the window and the
input.  What is left of the input behind the segment is known. -/
def Divided (model : Model α) (history : List Decision) (window : Window α) (input : Input)
    (units : List LexicalUnit) (behind : Input) : Prop :=
  ∃ unread, window.Unread model input unread behind ∧
    (history.map Prod.fst).reverse ++ (window.undecided ++ unread) = units

lemma divided_initial (h : model.Segment text units behind) :
    Divided model [] .initial text units behind :=
  ⟨units, by simpa [Unread, initial] using h, rfl⟩

/-- **Reading ahead in a segment comes to its next units**, and does not fail. -/
lemma Divided.exists_refill (h : Divided model history window input units behind)
    (hunderway : window.Underway) :
    ∃ window' rest, window.refill model input = (window', .ok () rest) ∧
      Divided model history window' rest units behind := by
  obtain ⟨unread, hunread, rfl⟩ := h
  rw [Unread] at hunread
  split at hunread
  · rename_i hended
    refine ⟨window, input, ?_, unread, by rwa [Unread, if_pos hended], rfl⟩
    rw [refill, hunderway.complete_eq, if_pos hended]
  · rename_i hended
    obtain ⟨read, unread, ended, rest, hfound, rfl, hunread⟩ :=
      readAhead_of_segment hunread (model.lookahead + 1 - window.ahead.length)
    refine ⟨{ window with ahead := window.ahead ++ read, ended }, rest, ?_, unread, ?_, ?_⟩
    · simp [refill, hunderway.complete_eq, hended, hfound]
    · cases ended <;> simpa [Unread] using hunread
    · simp [undecided]

/-! ## The way through a segment -/

variable [Add α] [Sub α] [Ord α]

lemma Divided.step (h : Divided model history window input units behind)
    (hlinked : window.IsLinked) :
    Divided model (window.decided model ++ history) (window.step model).1 input units behind := by
  obtain ⟨unread, hunread, rfl⟩ := h
  have hstep : ((window.decided model).map Prod.fst).reverse ++ (window.step model).1.undecided
      = window.undecided := undecided_step hlinked
  refine ⟨unread, by simpa [Unread, step_ended] using hunread, ?_⟩
  rw [← hstep]
  simp

/-- The states, in front of each refill, that a fresh selector comes to in the first segment of an
input, with the decisions that have been written, the last one first. -/
inductive Course (model : Model α) (text : Input) : List Decision → Window α → Input → Prop
  | start : Course model text [] .initial text
  | step {history : List Decision} {window window' : Window α} {input rest : Input}
      (h : Course model text history window input)
      (hrefill : window.refill model input = (window', .ok () rest)) (hahead : window'.ahead ≠ []) :
      Course model text (window'.decided model ++ history) (window'.step model).1 rest

lemma run_of_course (h : Course model text history window input) :
    Run model history window input := by
  induction h with
  | start => exact .start text
  | step _ hrefill hahead ih => exact ih.step hrefill hahead

lemma refilled_of_course (h : Course model text history window input)
    (hrefill : window.refill model input = (window', .ok () rest)) :
    Refilled model window input window' rest :=
  refilled_refill (underway_of_run (run_of_course h)) hrefill

/-- A refill on the way leaves the units of the segment divided, if they were. -/
lemma Divided.refilled (hdivided : Divided model history window input units behind)
    (h : Course model text history window input)
    (hrefill : window.refill model input = (window', .ok () rest)) :
    Divided model history window' rest units behind := by
  obtain ⟨_, _, hrefill', hdivided'⟩ := hdivided.exists_refill (underway_of_run (run_of_course h))
  rw [hrefill] at hrefill'
  cases hrefill'
  exact hdivided'

/-- **The units of the segment stay the same on the way**: they have been decided, read, or
neither. -/
lemma divided_of_course (hsegment : model.Segment text units behind)
    (h : Course model text history window input) :
    Divided model history window input units behind := by
  induction h with
  | start => exact divided_initial hsegment
  | step h hrefill _ ih =>
      exact (ih.refilled h hrefill).step (refilled_of_course h hrefill).underway.linked

/-- **Draining a window goes to the end of the way**, and writes the decisions that come on it. -/
lemma drain_course (hsegment : model.Segment text units behind)
    (h : Course model text history window input) :
    (window.drain model input).fault = none ∧ (window.drain model input).rest = behind ∧
      ∃ decisions window' input', Course model text (decisions ++ history) window' input' ∧
        ((decisions ++ history).map Prod.fst).reverse = units ∧
        Event.written (window.drain model input).events =
          decisions.reverse.flatMap writeChoice := by
  fun_induction drain model window input generalizing history with
  | case1 window input window' fault rest hrefill =>
      obtain ⟨_, _, hrefill', -⟩ :=
        (divided_of_course hsegment h).exists_refill (underway_of_run (run_of_course h))
      cases hrefill.symm.trans hrefill'
  | case2 window input window' rest hrefill hahead =>
      -- Nothing is ahead: all units of the segment have been decided.
      obtain ⟨hended, hpending⟩ := (refilled_of_course h hrefill).done hahead
      obtain ⟨unread, hunread, hunits⟩ := (divided_of_course hsegment h).refilled h hrefill
      rw [Unread, if_pos hended] at hunread
      obtain ⟨rfl, rfl⟩ := hunread
      refine ⟨rfl, rfl, [], window, input, h, ?_, rfl⟩
      simpa [undecided, hpending, hahead] using hunits
  | case3 window input window' rest hrefill hahead _ _ ih =>
      obtain ⟨hfault, hrest, decisions, last, input', hcourse, hunits, hwritten⟩ :=
        ih (h.step hrefill hahead)
      refine ⟨hfault, hrest, decisions ++ window'.decided model, last, input', ?_, ?_, ?_⟩
      · rwa [List.append_assoc]
      · rwa [List.append_assoc]
      · simp only [Outcome.after, List.singleton_append, Event.written, step_text, hwritten,
          List.reverse_append, List.flatMap_append]

/-- **A call on an input of one segment** comes to its end, and writes the decisions on the way
through the segment. -/
lemma processInput_of_segment (hsegment : model.Segment text units []) (flushSegments : Bool) :
    let outcome := Window.initial.processInput model flushSegments text
    outcome.fault = none ∧ outcome.rest = [] ∧
      ∃ decisions window' input', Course model text decisions window' input' ∧
        (decisions.map Prod.fst).reverse = units ∧
        Event.written outcome.events = decisions.reverse.flatMap writeChoice := by
  obtain ⟨hfault, hrest, decisions, window', input', hcourse, hunits, hwritten⟩ :=
    drain_course hsegment .start
  rw [List.append_nil] at hcourse hunits
  fun_cases processInput model flushSegments Window.initial text with
  | case1 =>
      -- Nothing is drained: the only decision is for the end of the segment, which is written as
      -- nothing.
      obtain ⟨last, rfl, hlast⟩ := hsegment.of_nil
      obtain ⟨decision, hdecision, rfl⟩ :=
        List.map_eq_singleton_iff.1 (List.map_reverse.trans hunits)
      refine ⟨rfl, rfl, decisions, window', input', hcourse, hunits, ?_⟩
      rw [hdecision, List.flatMap_singleton, writeChoice, hlast]
      rfl
  | case2 n rest =>
      cases hsegment with
      | ending h _ => cases (Model.readUnit_broken n rest).symm.trans h
      | unit h _ _ => cases (Model.readUnit_broken n rest).symm.trans h
  | case3 =>
      rename_i hfault'
      cases hfault'.symm.trans hfault
  | case4 =>
      refine ⟨hfault, hrest, decisions, window', input', hcourse, hunits, ?_⟩
      rw [written_append]
      exact (List.append_nil _).trans hwritten
  | case5 =>
      rename_i hrest'
      cases hrest'.symm.trans hrest
  | case6 =>
      rename_i hrest' _
      cases hrest'.symm.trans hrest

end Window

end LexicalSelection
