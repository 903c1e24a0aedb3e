import LexicalSelection.Proofs.LexicalUnit.Spelling
import LexicalSelection.Proofs.Selector.Layers
import LexicalSelection.Selector.Stream
import Mathlib.Data.List.Forall2

/-!
# Runs of a selector

Selecting goes on step by step: units are read ahead, and then one of them is decided.  The states
in between are followed with all decisions that have been written, so that what holds of every run
can be said about them.  A run goes on behind a broken sequence, where a call fails and the next one
takes the window over.

* `Model.Segment` — the units of a segment, the one that ends it included.
* `Run` — a state that selecting can come to, with the decisions so far.
* `Underway` — what holds of the units in every such state (`underway_of_run`).
* `Selection` — an input, the decisions for the units of its segments, and the text that they give.
* `Served` — a window after some calls, each of which came to the end of its input.
* **`drain_run`** — draining a window writes the decisions of a run, for the units of the segment.
* **`selection_of_served`** — so do the calls, segment by segment, with the separators in between.
-/

namespace LexicalSelection

/-! ## Segments -/

namespace Model

variable {α : Type} {model : Model α} {input rest : Input} {units : List LexicalUnit}
  {unit : LexicalUnit}

/-- The units of a segment at the front of an input, up to the first that is the end of one, and
what is left of the input. -/
inductive Segment (model : Model α) : Input → List LexicalUnit → Input → Prop
  | ending {input rest : Input} {unit : LexicalUnit} (h : model.readUnit input = .ok unit rest)
      (hend : unit.isEnd = true) : Segment model input [unit] rest
  | unit {input behind rest : Input} {unit : LexicalUnit} {units : List LexicalUnit}
      (h : model.readUnit input = .ok unit behind) (hopen : unit.isEnd = false)
      (hrest : Segment model behind units rest) : Segment model input (unit :: units) rest

/-- The end of a segment has no targets. -/
lemma targets_of_readUnit (h : model.readUnit input = .ok unit rest) (hend : unit.isEnd = true) :
    unit.targets = [] := by
  obtain ⟨bare, hbare, rfl⟩ := Input.map_eq_ok.1 h
  have hbareEnd : bare.isEnd = true := by simpa [annotateUnit, LexicalUnit.isEnd] using hend
  have htargets := LexicalUnit.targets_of_read hbare hbareEnd
  simp [annotateUnit, htargets]

end Model

namespace LexicalUnit

/-- No unit is the end of a segment. -/
def Open (units : List LexicalUnit) : Prop := ∀ unit ∈ units, unit.isEnd = false

/-- The last unit, and no other one, is the end of a segment. -/
def Whole (units : List LexicalUnit) : Prop :=
  ∃ front last, units = front ++ [last] ∧ Open front ∧ last.isEnd = true

/-- Ends of segments have no targets. -/
def EndsBare (units : List LexicalUnit) : Prop :=
  ∀ unit ∈ units, unit.isEnd = true → unit.targets = []

variable {units units' : List LexicalUnit} {unit : LexicalUnit}

lemma open_cons : Open (unit :: units) ↔ unit.isEnd = false ∧ Open units :=
  List.forall_mem_cons

/-- Open units in front of a whole segment make a whole segment. -/
lemma Whole.append_left (hopen : Open units) (h : Whole units') : Whole (units ++ units') := by
  obtain ⟨front, last, rfl, hfront, hlast⟩ := h
  refine ⟨units ++ front, last, by simp, fun unit hunit => ?_, hlast⟩
  exact (List.mem_append.1 hunit).elim (hopen unit) (hfront unit)

/-- A whole segment has its end, at least. -/
lemma Whole.ne_nil (h : Whole units) : units ≠ [] := by
  obtain ⟨front, last, rfl, -, -⟩ := h
  simp

/-- Behind the first of whole units there are whole units, or it was the end. -/
lemma Whole.of_cons (h : Whole (unit :: units)) :
    (unit.isEnd = true ∧ units = []) ∨ (unit.isEnd = false ∧ Whole units) := by
  obtain ⟨front, last, heq, hfront, hlast⟩ := h
  cases front with
  | nil =>
      obtain ⟨rfl, rfl⟩ := List.cons.inj heq
      exact Or.inl ⟨hlast, rfl⟩
  | cons first front =>
      obtain ⟨rfl, rfl⟩ := List.cons.inj heq
      obtain ⟨hfirst, hfront⟩ := open_cons.1 hfront
      exact Or.inr ⟨hfirst, front, last, rfl, hfront, hlast⟩

end LexicalUnit

open LexicalUnit (Open Whole EndsBare)

namespace Model

variable {α : Type} {model : Model α} {input rest : Input} {units : List LexicalUnit}

/-- The units that are read up to the end of a segment are a whole segment. -/
lemma Segment.whole (h : model.Segment input units rest) : Whole units := by
  induction h with
  | @ending _ _ unit _ hend => exact ⟨[], unit, rfl, by simp [Open], hend⟩
  | @unit _ _ _ unit _ _ hopen _ ih =>
      have hfirst : Open [unit] := by simpa [Open] using hopen
      exact ih.append_left hfirst

end Model

namespace Window

variable {α : Type} {model : Model α} {window window' : Window α} {input rest : Input}

/-! ## Reading ahead -/

/-- Reading ahead comes to the end of the segment, or stops when there are enough units. -/
lemma readAhead_spec {count : Nat} {ended : Bool}
    (h : (readAhead model count input).2 = .ok ended rest) :
    EndsBare (readAhead model count input).1 ∧
      if ended then model.Segment input (readAhead model count input).1 rest
      else Open (readAhead model count input).1 ∧ (readAhead model count input).1.length = count ∧
        ∀ units behind, model.Segment rest units behind →
          model.Segment input ((readAhead model count input).1 ++ units) behind := by
  induction count generalizing input with
  | zero =>
      cases h
      simp [readAhead, Open, EndsBare]
  | succ count ih =>
      simp only [readAhead] at h ⊢
      split at h
      · cases h
      · rename_i unit behind hunit
        split at h
        · rename_i hend
          cases h
          simp only [hend, if_true]
          refine ⟨?_, .ending hunit hend⟩
          intro other hother
          obtain rfl := List.mem_singleton.1 hother
          exact Model.targets_of_readUnit hunit
        · rename_i hopen
          have hopen : unit.isEnd = false := by simpa using hopen
          obtain ⟨hbare, hrest⟩ := ih h
          simp only [hopen, Bool.false_eq_true, if_false]
          refine ⟨List.forall_mem_cons.2 ⟨by simp [hopen], hbare⟩, ?_⟩
          cases ended with
          | true => exact .unit hunit hopen hrest
          | false =>
              obtain ⟨hunits, hlength, hsegment⟩ := hrest
              exact ⟨LexicalUnit.open_cons.2 ⟨hopen, hunits⟩, by simp [hlength],
                fun units rest' h => .unit hunit hopen (hsegment units rest' h)⟩

/-- Behind what was read before a broken sequence the segment goes on. -/
lemma open_of_readAhead_error {count : Nat} {fault : BrokenSequence}
    (h : (readAhead model count input).2 = .error fault rest) :
    Open (readAhead model count input).1 := by
  induction count generalizing input with
  | zero => cases h
  | succ count ih =>
      simp only [readAhead] at h ⊢
      split at h
      · simp [Open]
      · rename_i unit behind hunit
        split at h
        · cases h
        · rename_i hopen
          have hopen : unit.isEnd = false := by simpa using hopen
          simp only [hopen, Bool.false_eq_true, if_false]
          exact LexicalUnit.open_cons.2 ⟨hopen, ih h⟩

/-! ## Units in order -/

/-- What holds of the units that have been read and not been written.  The layers are linked over
those that wait; and only the last one can be the end of the segment, and it is when the end has
been read. -/
structure Underway [Zero α] (window : Window α) : Prop where
  linked : window.IsLinked
  waiting : Open window.pending
  bare : EndsBare window.ahead
  open_ahead : window.ended = false → Open window.ahead
  whole_ahead : window.ended = true → window.undecided = [] ∨ Whole window.ahead

variable [Zero α]

/-- A window between two steps is complete when the segment has ended. -/
lemma Underway.complete_eq (h : window.Underway) : window.complete = window.ended := by
  cases hended : window.ended with
  | true => simp [complete, hended]
  | false =>
      simp only [complete, hended, Bool.false_or, Bool.eq_false_iff]
      intro hany
      obtain ⟨last, hlast, hend⟩ := (Option.any_eq_true _ _).1 hany
      have hopen := h.open_ahead hended last (List.mem_of_getLast? hlast)
      simp [hopen] at hend

/-- The units of the current segment that have not been read, and the input behind them. -/
def Unread (model : Model α) (window : Window α) (input : Input) (units : List LexicalUnit)
    (rest : Input) : Prop :=
  if window.ended then units = [] ∧ rest = input else model.Segment input units rest

/-- The window has read more units ahead: enough for the next decision, or all of the segment. -/
structure Refilled (model : Model α) (window : Window α) (input : Input) (window' : Window α)
    (rest : Input) : Prop where
  grown : ∃ units ended, window' = { window with ahead := window.ahead ++ units, ended }
  underway : window'.Underway
  ready : window'.ended = true ∨ model.lookahead + 1 ≤ window'.ahead.length
  unread : ∀ units behind, window'.Unread model rest units behind →
    ∃ read, window'.ahead = window.ahead ++ read ∧
      window.Unread model input (read ++ units) behind

/-- Refilling puts units of the input behind those ahead, until the window is complete. -/
lemma refilled_refill (h : window.Underway)
    (hrefill : window.refill model input = (window', .ok () rest)) :
    Refilled model window input window' rest := by
  simp only [refill, h.complete_eq] at hrefill
  split at hrefill
  · rename_i hended
    cases hrefill
    refine ⟨⟨[], window.ended, by simp⟩, h, Or.inl hended, fun units behind hunits => ?_⟩
    exact ⟨[], by simp, hunits⟩
  · rename_i hended
    have hended : window.ended = false := by simpa using hended
    split at hrefill
    · rename_i ended rest' hfound
      cases hrefill
      obtain ⟨hbare, hread⟩ := readAhead_spec hfound
      have hopen := h.open_ahead hended
      cases ended with
      | true =>
          refine ⟨⟨_, true, rfl⟩, ⟨h.linked, h.waiting, ?_, by simp, fun _ => ?_⟩, Or.inl rfl, ?_⟩
          · exact List.forall_mem_append.2 ⟨h.bare, hbare⟩
          · exact Or.inr (hread.whole.append_left hopen)
          · rintro units behind ⟨rfl, rfl⟩
            refine ⟨_, rfl, ?_⟩
            simpa [Unread, hended] using hread
      | false =>
          obtain ⟨hunits, hlength, hsegment⟩ := hread
          refine ⟨⟨_, false, rfl⟩, ⟨h.linked, h.waiting, ?_, fun _ => ?_, by simp⟩, Or.inr ?_, ?_⟩
          · exact List.forall_mem_append.2 ⟨h.bare, hbare⟩
          · exact List.forall_mem_append.2 ⟨hopen, hunits⟩
          · simp only [List.length_append, hlength]
            omega
          · intro units behind hunits
            refine ⟨_, rfl, ?_⟩
            simpa [Unread, hended] using hsegment units behind hunits
    · cases hrefill

/-- Refilling leaves the units of the past. -/
lemma Refilled.past_eq (h : Refilled model window input window' rest) :
    window'.past = window.past := by
  obtain ⟨units, ended, rfl⟩ := h.grown
  rfl

/-- Refilling leaves the units that wait. -/
lemma Refilled.pending_eq (h : Refilled model window input window' rest) :
    window'.pending = window.pending := by
  obtain ⟨units, ended, rfl⟩ := h.grown
  rfl

/-- Refilling leaves the hypotheses. -/
lemma Refilled.layers_eq (h : Refilled model window input window' rest) :
    window'.layers = window.layers := by
  obtain ⟨units, ended, rfl⟩ := h.grown
  rfl

/-- What was read before a broken sequence stays ahead, and no end of a segment is in it. -/
lemma grown_of_refill_error {fault : BrokenSequence} (h : window.Underway)
    (hrefill : window.refill model input = (window', .error fault rest)) :
    ∃ units, Open units ∧ window.ended = false ∧
      window' = { window with ahead := window.ahead ++ units } := by
  simp only [refill, h.complete_eq] at hrefill
  split at hrefill
  · cases hrefill
  · rename_i hended
    split at hrefill
    · cases hrefill
    · rename_i fault' rest' hfound
      cases hrefill
      exact ⟨_, open_of_readAhead_error hfound, by simpa using hended, rfl⟩

/-- Behind a refill nothing is ahead just when the segment is done. -/
lemma Refilled.done (h : Refilled model window input window' rest) (hahead : window'.ahead = []) :
    window'.ended = true ∧ window'.pending = [] := by
  have hended : window'.ended = true := by simpa [hahead] using h.ready
  refine ⟨hended, ?_⟩
  rcases h.underway.whole_ahead hended with hundecided | hwhole
  · simpa [undecided, hahead] using hundecided
  · exact absurd hahead hwhole.ne_nil

/-- When all units of a segment have been taken, the window is ready for the next one. -/
lemma underway_next (h : Refilled model window input window' rest) (hahead : window'.ahead = []) :
    ({ window' with ended := false } : Window α).Underway where
  linked := h.underway.linked
  waiting := h.underway.waiting
  bare := h.underway.bare
  open_ahead _ := by simp [hahead, Open]
  whole_ahead := by simp

/-- When refilling fails, the units that were read stay ahead. -/
lemma underway_broken {units : List LexicalUnit} (h : window.Underway) (hopen : Open units)
    (hended : window.ended = false) :
    ({ window with ahead := window.ahead ++ units, ended := false } : Window α).Underway where
  linked := h.linked
  waiting := h.waiting
  bare := List.forall_mem_append.2
    ⟨h.bare, fun unit hunit hend => by simp [hopen unit hunit] at hend⟩
  open_ahead _ := List.forall_mem_append.2 ⟨h.open_ahead hended, hopen⟩
  whole_ahead := by simp

variable [Add α] [Sub α] [Ord α]

lemma step_ended : (window.step model).1.ended = window.ended := by
  cases hahead : window.ahead with
  | nil => simp [step, hahead]
  | cons unit ahead =>
      simp only [step, hahead]
      split <;> rfl

/-- A step leaves the window between two steps again. -/
lemma underway_step (h : window.Underway) : (window.step model).1.Underway := by
  have hlinked := isLinked_step model h.linked
  cases hahead : window.ahead with
  | nil => simpa [step, hahead] using h
  | cons unit ahead =>
      have hbare : EndsBare ahead := fun other hother =>
        h.bare other (hahead ▸ List.mem_cons_of_mem _ hother)
      have hopen : window.ended = false → Open ahead := fun hended other hother =>
        h.open_ahead hended other (hahead ▸ List.mem_cons_of_mem _ hother)
      have hwhole : window.ended = true →
          (unit.isEnd = true ∧ ahead = []) ∨ (unit.isEnd = false ∧ Whole ahead) := by
        intro hended
        rcases h.whole_ahead hended with hnil | hwhole
        · simp [undecided, hahead] at hnil
        · exact (hahead ▸ hwhole).of_cons
      simp only [step, hahead] at hlinked ⊢
      split
      · rename_i hambiguous
        rw [if_pos hambiguous] at hlinked
        have hunit : unit.isEnd = false := by
          cases hend : unit.isEnd with
          | false => rfl
          | true =>
              have htargets := h.bare unit (hahead ▸ List.mem_cons_self) hend
              simp [LexicalUnit.ambiguous, htargets] at hambiguous
        refine ⟨hlinked, LexicalUnit.open_cons.2 ⟨hunit, h.waiting⟩, hbare, hopen, fun hended => ?_⟩
        rcases hwhole hended with ⟨hend, -⟩ | ⟨-, hwhole⟩
        · simp [hunit] at hend
        · exact Or.inr hwhole
      · rename_i hsole
        rw [if_neg hsole] at hlinked
        refine ⟨hlinked, by simp [commit, Open], hbare, hopen, fun hended => ?_⟩
        rcases hwhole hended with ⟨-, rfl⟩ | ⟨-, hwhole⟩
        · exact Or.inl (by simp [commit, undecided])
        · exact Or.inr hwhole

/-! ## Runs -/

/-- The states that selecting can come to, in front of each refill, with all decisions that have
been written, the last one first.  Behind a segment comes another one, of the same input or of that
of the next call; and behind a call that failed at a broken sequence there may be another call. -/
inductive Run (model : Model α) : List Decision → Window α → Input → Prop
  | start (input : Input) : Run model [] .initial input
  | step {history : List Decision} {window window' : Window α} {input rest : Input}
      (h : Run model history window input)
      (hrefill : window.refill model input = (window', .ok () rest)) (hahead : window'.ahead ≠ []) :
      Run model (window'.decided model ++ history) (window'.step model).1 rest
  | next {history : List Decision} {window window' : Window α} {input rest : Input}
      (h : Run model history window input)
      (hrefill : window.refill model input = (window', .ok () rest)) (hahead : window'.ahead = [])
      (input' : Input) : Run model history { window' with ended := false } input'
  | broken {history : List Decision} {window window' : Window α} {input rest : Input}
      {fault : BrokenSequence} (h : Run model history window input)
      (hrefill : window.refill model input = (window', .error fault rest)) (input' : Input) :
      Run model history { window' with ended := false } input'

variable {history : List Decision}

/-- A window of a run is between two steps. -/
lemma underway_of_run (h : Run model history window input) : window.Underway := by
  induction h with
  | start => exact ⟨.seeds, by simp [initial, Open], by simp [initial, EndsBare],
      by simp [initial, Open], by simp [initial]⟩
  | step _ hrefill _ ih => exact underway_step (refilled_refill ih hrefill).underway
  | next _ hrefill hahead _ ih => exact underway_next (refilled_refill ih hrefill) hahead
  | broken _ hrefill _ ih =>
      obtain ⟨units, hopen, hended, rfl⟩ := grown_of_refill_error ih hrefill
      exact underway_broken ih hopen hended

/-- The decisions of a run choose targets that the units have. -/
lemma valid_of_run (h : Run model history window input) :
    ∀ decision ∈ history, Decision.Valid decision := by
  induction h with
  | start => simp
  | step h hrefill _ ih =>
      have hlinked := (refilled_refill (underway_of_run h) hrefill).underway.linked
      exact List.forall_mem_append.2 ⟨valid_decided hlinked, ih⟩
  | next _ _ _ _ ih => exact ih
  | broken _ _ _ ih => exact ih

/-- The window is between two segments, and these decisions have been written. -/
structure Rests (model : Model α) (history : List Decision) (window : Window α) : Prop where
  run : ∀ input, Run model history { window with ended := false } input
  undecided : window.undecided = []

lemma rests_initial : Rests model [] .initial := ⟨.start, rfl⟩

/-- **Draining a window goes on with its run**, to the end of the segment.  What is written are the
decisions of the run, for the units that were undecided and for those that were unread. -/
lemma drain_run (hrun : Run model history window input)
    (hfault : (window.drain model input).fault = none) :
    ∃ decisions units, Rests model (decisions ++ history) (window.drain model input).window ∧
      Event.written (window.drain model input).events = decisions.reverse.flatMap writeChoice ∧
      window.Unread model input units (window.drain model input).rest ∧
      (decisions.map Prod.fst).reverse = window.undecided ++ units := by
  fun_induction drain model window input generalizing history with
  | case1 => simp at hfault
  | case2 window input window' rest hrefill hahead =>
      -- Nothing is ahead: the segment had been read and decided before.
      have hrefilled := refilled_refill (underway_of_run hrun) hrefill
      obtain ⟨hended, hpending⟩ := hrefilled.done hahead
      obtain ⟨read, hread, hunread⟩ := hrefilled.unread [] rest (by simp [Unread, hended])
      obtain ⟨hnil, rfl⟩ := List.append_eq_nil_iff.1 (hread.symm.trans hahead)
      have hwaiting : window.pending = [] := hrefilled.pending_eq ▸ hpending
      refine ⟨[], [], ⟨hrun.next hrefill hahead, ?_⟩, rfl, by simpa using hunread, ?_⟩
      · simp [undecided, hpending, hahead]
      · simp [undecided, hnil, hwaiting]
  | case3 window input window' rest hrefill hahead _ _ ih =>
      -- One step of the run, whose decisions come before those of the other steps.
      have hrefilled := refilled_refill (underway_of_run hrun) hrefill
      obtain ⟨decisions, units, hrests, hwritten, hunread, hunits⟩ :=
        ih (hrun.step hrefill hahead) hfault
      have hunread' : window'.Unread model rest units
          ((window'.step model).1.drain model rest).rest := by
        simpa [Unread, step_ended] using hunread
      obtain ⟨read, hread, hunread'⟩ := hrefilled.unread units _ hunread'
      have hpending := hrefilled.pending_eq
      refine ⟨decisions ++ window'.decided model, read ++ units, ?_, ?_, hunread', ?_⟩
      · rw [List.append_assoc]
        exact hrests
      · simp only [Outcome.after, List.singleton_append, Event.written, step_text, hwritten,
          List.reverse_append, List.flatMap_append]
      · rw [List.map_append, List.reverse_append, hunits, ← List.append_assoc,
          undecided_step hrefilled.underway.linked, undecided, undecided, hread, hpending]
        simp only [List.append_assoc]

/-! ## Calls -/

/-- What selecting makes of an input: the decisions for the units of each segment, and the text that
they give.  Each segment is written, and then the separator behind it. -/
inductive Selection (model : Model α) : Input → List (List Decision) → Text → Prop
  | done : Selection model [] [] []
  | last {input : Input} {segment : List Decision} (hne : input ≠ [])
      (h : model.Segment input (segment.map Prod.fst) []) :
      Selection model input [segment] (segment.flatMap writeChoice)
  | segment {input rest : Input} {c : Char} {segment : List Decision}
      {segments : List (List Decision)} {text : Text}
      (h : model.Segment input (segment.map Prod.fst) (.char c :: rest))
      (hrest : Selection model rest segments text) :
      Selection model input (segment :: segments) (segment.flatMap writeChoice ++ c :: text)

/-- A window after some calls, each with its input and with the text that it wrote.  Every call came
to the end of its input. -/
inductive Served (model : Model α) : List (Bytes × Text) → Window α → Prop
  | initial : Served model [] .initial
  | call {calls : List (Bytes × Text)} {window : Window α} (h : Served model calls window)
      (flushSegments : Bool) (bytes : Bytes)
      (hfault : (window.process model flushSegments bytes).fault = none) :
      Served model
        (calls ++ [(bytes, Event.written (window.process model flushSegments bytes).events)])
        (window.process model flushSegments bytes).window

/-- What is written by events in a row is written one behind the other. -/
lemma written_append (events events' : List Event) :
    Event.written (events ++ events') = Event.written events ++ Event.written events' := by
  induction events with
  | nil => rfl
  | cons event events ih => cases event <;> simp [Event.written, ih]

/-- Nothing is written by asking that what is written be passed on. -/
@[simp] lemma written_flush (flushSegments : Bool) :
    Event.written (if flushSegments then [Event.flush] else []) = [] := by
  cases flushSegments <;> rfl

/-- A segment that is drained from its beginning. -/
lemma drain_segment (hrests : Rests model history window) {outcome : Outcome α}
    (houtcome : drain model { window with ended := false } input = outcome)
    (hfault : outcome.fault = none) :
    ∃ segment : List Decision, Rests model (segment.reverse ++ history) outcome.window ∧
      Event.written outcome.events = segment.flatMap writeChoice ∧
      model.Segment input (segment.map Prod.fst) outcome.rest := by
  subst houtcome
  obtain ⟨decisions, units, hrests', hwritten, hunread, hunits⟩ :=
    drain_run (hrests.run input) hfault
  refine ⟨decisions.reverse, by simpa using hrests', hwritten, ?_⟩
  have hundecided : ({ window with ended := false } : Window α).undecided = [] := hrests.undecided
  rw [hundecided, List.nil_append, ← List.map_reverse] at hunits
  rw [hunits]
  simpa [Unread] using hunread

/-- **A call goes on with the run of its window**, and what it writes is a selection in its input.
-/
lemma selection_processInput {flushSegments : Bool} (hrests : Rests model history window)
    (hfault : (window.processInput model flushSegments input).fault = none) :
    ∃ segments : List (List Decision),
      Rests model (segments.flatten.reverse ++ history)
        (window.processInput model flushSegments input).window ∧
      Selection model input segments
        (Event.written (window.processInput model flushSegments input).events) ∧
      (window.processInput model flushSegments input).rest = [] := by
  fun_induction processInput model flushSegments window input generalizing history with
  | case1 window => exact ⟨[], hrests, .done, rfl⟩
  | case2 => simp at hfault
  | case3 =>
      rename_i hdrained
      simp [hdrained] at hfault
  | case4 window item items =>
      -- The input ends with this segment.
      rename_i hdrained hrest
      obtain ⟨segment, hrests', hwritten, hsegment⟩ := drain_segment hrests rfl hdrained
      refine ⟨[segment], by simpa using hrests', ?_, hrest⟩
      rw [written_append, hwritten]
      simpa [Event.written] using Selection.last (List.cons_ne_nil item items) (hrest ▸ hsegment)
  | case5 => simp at hfault
  | case6 window item items =>
      -- A separator stands behind this segment, and the call goes on behind it.
      rename_i drained c rest hdrained hrest _ ih
      obtain ⟨segment, hrests', hwritten, hsegment⟩ :=
        drain_segment hrests (show _ = drained from rfl) hdrained
      obtain ⟨segments, hrests'', hselection, hdone⟩ := ih hrests' hfault
      refine ⟨segment :: segments, ?_, ?_, hdone⟩
      · simpa [Outcome.after] using hrests''
      · simp only [Outcome.after, written_append, hwritten, Event.written, written_flush,
          List.append_assoc, List.cons_append, List.nil_append]
        exact .segment (hrest ▸ hsegment) hselection

/-- **What the calls have written are selections** in their inputs, and their decisions together are
those of the run. -/
lemma selection_of_served {calls : List (Bytes × Text)} (h : Served model calls window) :
    ∃ logs : List (List (List Decision)), Rests model logs.flatten.flatten.reverse window ∧
      List.Forall₂ (fun call segments => Selection model (.ofBytes call.1) segments call.2)
        calls logs := by
  induction h with
  | initial => exact ⟨[], rests_initial, .nil⟩
  | call _ flushSegments bytes hfault ih =>
      obtain ⟨logs, hrests, hlogs⟩ := ih
      obtain ⟨segments, hrests', hselection, -⟩ := selection_processInput hrests hfault
      refine ⟨logs ++ [segments], ?_, List.rel_append hlogs (.cons hselection .nil)⟩
      simp only [List.flatten_append, List.flatten_singleton, List.reverse_append]
      exact hrests'

end Window

end LexicalSelection
