import LexicalSelection.Proofs.Selector.Copying
import LexicalSelection.Proofs.Selector.Course
import Mathlib.Data.List.ReduceOption

/-!
# Calls that fail among others

A call that comes to a broken sequence stops where it is.  Some units have been written then, and
others have been read that the next call finds in the window.  Nothing is lost in between: what has
been written and what is left in the window are all units that could be read.

* `Model.readableUnits` — the units of an input, up to its end or to a broken sequence.
* `Called` — a window after some calls, whatever became of them.
* `Stands` — the window is at the end of a call, and these decisions have been written.
* **`remaining_drain`** — draining loses no unit, whether it comes to its end or not.
* **`called_accounts_for_units`** — so it is with calls; and the units that a failed call left are
  written by the next one, in front of all units of its input and of its first separator.
-/

namespace LexicalSelection

lemma Input.ofBytes_ne_nil {bytes : Bytes} (h : bytes ≠ []) : Input.ofBytes bytes ≠ [] := by
  cases bytes with
  | nil => exact absurd rfl h
  | cons lead tail => simp [ofBytes, Utf8.items, Utf8.itemsFrom]

/-! ## Units that can be read -/

namespace Model

variable {α : Type} {model : Model α} {input rest : Input} {unit : LexicalUnit}
  {units : List LexicalUnit} {fault : BrokenSequence}

/-- A unit takes something from the input. -/
lemma readUnit_shorter (h : model.readUnit input = .ok unit rest) (hopen : ¬unit.isEnd = true) :
    rest.length < input.length := by
  have hlength := readUnit_length h
  rw [if_neg hopen] at hlength
  omega

/-- The units at the front of an input up to the end of the segment or to a broken sequence, and
what is found behind them. -/
def segmentUnits (model : Model α) (input : Input) : List LexicalUnit × Found Unit :=
  match h : model.readUnit input with
  | .error fault rest => ([], .error fault rest)
  | .ok unit rest =>
    if hend : unit.isEnd then ([unit], .ok () rest)
    else
      have := readUnit_shorter h hend
      (unit :: (segmentUnits model rest).1, (segmentUnits model rest).2)
termination_by input.length
decreasing_by assumption

/-- A segment ends where reading a unit fails. -/
lemma segmentUnits_of_error (h : model.readUnit input = .error fault rest) :
    model.segmentUnits input = ([], .error fault rest) := by
  rw [segmentUnits]
  split
  · rename_i h'
    cases h.symm.trans h'
    rfl
  · rename_i h'
    cases h.symm.trans h'

/-- A segment ends with its end. -/
lemma segmentUnits_of_end (h : model.readUnit input = .ok unit rest) (hend : unit.isEnd = true) :
    model.segmentUnits input = ([unit], .ok () rest) := by
  rw [segmentUnits]
  split
  · rename_i h'
    cases h.symm.trans h'
  · rename_i h'
    cases h.symm.trans h'
    rw [dif_pos hend]

/-- A segment goes on behind a unit. -/
lemma segmentUnits_of_unit (h : model.readUnit input = .ok unit rest)
    (hopen : unit.isEnd = false) : model.segmentUnits input
      = (unit :: (model.segmentUnits rest).1, (model.segmentUnits rest).2) := by
  rw [segmentUnits]
  split
  · rename_i h'
    cases h.symm.trans h'
  · rename_i h'
    cases h.symm.trans h'
    simp [hopen]

/-- When the end of the segment can be read, the units are those of the segment. -/
lemma segment_of_segmentUnits (h : model.segmentUnits input = (units, .ok () rest)) :
    model.Segment input units rest := by
  fun_induction segmentUnits model input generalizing units with
  | case1 => simp at h
  | case2 input unit behind hread hend =>
      obtain ⟨rfl, rfl⟩ : [unit] = units ∧ behind = rest := by simpa using h
      exact .ending hread hend
  | case3 input unit behind hread hopen _ ih =>
      obtain ⟨rfl, hfound⟩ : unit :: (model.segmentUnits behind).1 = units
          ∧ (model.segmentUnits behind).2 = .ok () rest := by simpa using h
      exact .unit hread (by simpa using hopen) (ih (Prod.ext rfl hfound))

/-- The units of a segment are those at the front of its input. -/
lemma segmentUnits_of_segment (h : model.Segment input units rest) :
    model.segmentUnits input = (units, .ok () rest) := by
  induction h with
  | ending hread hend => exact segmentUnits_of_end hread hend
  | unit hread hopen _ ih => rw [segmentUnits_of_unit hread hopen, ih]

/-- Only a broken sequence keeps the end of a segment from being read. -/
lemma broken_of_segmentUnits (h : (model.segmentUnits input).2 = .error fault rest) :
    input.Broken := by
  fun_induction segmentUnits model input with
  | case1 input fault' rest' hread => exact broken_of_readUnit hread
  | case2 => cases h
  | case3 input unit behind hread hopen _ ih => exact (ih h).of_suffix (suffix_of_readUnit hread)

/-- A text begins with a segment. -/
lemma exists_segment_ofText (model : Model α) (text : Text) :
    ∃ units rest, model.Segment (.ofText text) units rest := by
  rcases hfound : model.segmentUnits (.ofText text) with ⟨units, (rest | ⟨fault, rest⟩)⟩
  · exact ⟨units, _, segment_of_segmentUnits hfound⟩
  · exact absurd (broken_of_segmentUnits (by rw [hfound])) (Input.not_broken_ofText text)

/-- The units that can be read from an input, segment by segment.  Each segment but the last has a
separator behind it; a broken sequence ends the reading. -/
def readableUnits (model : Model α) (input : Input) : List LexicalUnit :=
  match input with
  | [] => []
  | item :: items =>
    match h : model.segmentUnits (item :: items) with
    | (units, .ok () (.char _ :: rest)) =>
      have : rest.length < (item :: items).length := by
        obtain ⟨front, hinput, -⟩ := (segment_of_segmentUnits h).exists_text
        rw [hinput, List.length_append, List.length_cons]
        omega
      units ++ readableUnits model rest
    | (units, _) => units
termination_by input.length
decreasing_by assumption

/-- Behind a separator the next segment is read. -/
lemma readableUnits_of_separator {c : Char} (hne : input ≠ [])
    (h : model.segmentUnits input = (units, .ok () (.char c :: rest))) :
    model.readableUnits input = units ++ model.readableUnits rest := by
  fun_cases readableUnits model input with
  | case1 => exact absurd rfl hne
  | case2 item items units' c' rest' h' =>
      cases h.symm.trans h'
      rfl
  | case3 item items units' found hother h' =>
      cases h.symm.trans h'
      exact absurd rfl (hother _ _)

/-- Without a separator behind it a segment is the last one. -/
lemma readableUnits_of_last {found : Found Unit} (hne : input ≠ [])
    (h : model.segmentUnits input = (units, found))
    (hlast : ∀ c rest, found ≠ .ok () (.char c :: rest)) :
    model.readableUnits input = units := by
  fun_cases readableUnits model input with
  | case1 => exact absurd rfl hne
  | case2 item items units' c rest h' =>
      cases h.symm.trans h'
      exact absurd rfl (hlast _ _)
  | case3 item items units' found' _ h' =>
      cases h.symm.trans h'
      rfl

/-- What is read ahead are the next units of the segment, as far as they can be read. -/
lemma segmentUnits_readAhead (model : Model α) (count : Nat) (input : Input) :
    model.segmentUnits input = match Window.readAhead model count input with
      | (units, .ok true rest) => (units, .ok () rest)
      | (units, .ok false rest) =>
        (units ++ (model.segmentUnits rest).1, (model.segmentUnits rest).2)
      | (units, .error fault rest) => (units, .error fault rest) := by
  induction count generalizing input with
  | zero => simp [Window.readAhead]
  | succ count ih =>
      simp only [Window.readAhead]
      cases hread : model.readUnit input with
      | error fault rest => simp [segmentUnits_of_error hread]
      | ok unit behind =>
          cases hend : unit.isEnd with
          | true => simp [segmentUnits_of_end hread hend, hend]
          | false =>
              simp only [segmentUnits_of_unit hread hend, hend, ih behind]
              rcases Window.readAhead model count behind with ⟨units, (⟨_ | _, rest⟩ | _)⟩ <;> simp

end Model

namespace Window

variable {α : Type} {model : Model α} {window window' : Window α} {input rest : Input}
  {history : List Decision} {fault : BrokenSequence}

/-! ## Units on the way through a window -/

/-- What can still be read of the current segment. -/
def remaining (model : Model α) (window : Window α) (input : Input) :
    List LexicalUnit × Found Unit :=
  if window.ended then ([], .ok () input) else model.segmentUnits input

/-- When the segment has ended nothing remains to be read of it. -/
lemma remaining_of_ended (h : window.ended = true) :
    window.remaining model input = ([], .ok () input) := by
  simp [remaining, h]

/-- At the beginning of a segment all of it remains. -/
lemma remaining_next (window : Window α) :
    ({ window with ended := false } : Window α).remaining model input
      = model.segmentUnits input := by
  simp [remaining]

variable [Zero α]

/-- Units that are read ahead do not remain to be read. -/
lemma remaining_refill (h : window.Underway)
    (hrefill : window.refill model input = (window', .ok () rest)) :
    ∃ units, window'.ahead = window.ahead ++ units ∧ window.remaining model input
      = (units ++ (window'.remaining model rest).1, (window'.remaining model rest).2) := by
  simp only [refill, h.complete_eq] at hrefill
  split at hrefill
  · cases hrefill
    exact ⟨[], by simp⟩
  · rename_i hended
    rcases hread : readAhead model (model.lookahead + 1 - window.ahead.length) input
      with ⟨units, (⟨ended, behind⟩ | _)⟩
    · have hsegment := Model.segmentUnits_readAhead model
        (model.lookahead + 1 - window.ahead.length) input
      rw [hread] at hrefill hsegment
      cases hrefill
      refine ⟨units, rfl, ?_⟩
      cases ended with
      | true => simpa [remaining, hended] using hsegment
      | false => simpa [remaining, hended] using hsegment
    · rw [hread] at hrefill
      cases hrefill

/-- All units in front of a broken sequence are ahead when reading ahead has come to it. -/
lemma remaining_of_refill_error (h : window.Underway)
    (hrefill : window.refill model input = (window', .error fault rest)) :
    ∃ units, window' = { window with ahead := window.ahead ++ units } ∧
      window.remaining model input = (units, .error fault rest) := by
  simp only [refill, h.complete_eq] at hrefill
  split at hrefill
  · cases hrefill
  · rename_i hended
    rcases hread : readAhead model (model.lookahead + 1 - window.ahead.length) input
      with ⟨units, (_ | ⟨fault', behind⟩)⟩
    · rw [hread] at hrefill
      cases hrefill
    · have hsegment := Model.segmentUnits_readAhead model
        (model.lookahead + 1 - window.ahead.length) input
      rw [hread] at hrefill hsegment
      cases hrefill
      exact ⟨units, rfl, by simpa [remaining, hended] using hsegment⟩

variable [Add α] [Sub α] [Ord α]

/-- A step reads nothing. -/
lemma remaining_step (model : Model α) (window : Window α) (input : Input) :
    (window.step model).1.remaining model input = window.remaining model input := by
  simp [remaining, step_ended]

/-- The window is at the end of a call, whatever became of that, and these decisions have been
written, the last one first. -/
def Stands (model : Model α) (history : List Decision) (window : Window α) : Prop :=
  ∀ input, Run model history { window with ended := false } input

/-- What an outcome leaves: the rest of the input, or the broken sequence that stopped it. -/
def found (outcome : Outcome α) : Found Unit :=
  match outcome.fault with
  | none => .ok () outcome.rest
  | some fault => .error fault outcome.rest

/-- **Draining loses no unit**, whether it comes to the end of the segment or to a broken sequence.
What was undecided or remained to be read has been written or is undecided; and nothing is, when the
segment has been drained to its end. -/
lemma remaining_drain (hrun : Run model history window input) {outcome : Outcome α}
    (houtcome : window.drain model input = outcome) :
    ∃ decisions, Stands model (decisions ++ history) outcome.window ∧
      Event.written outcome.events = decisions.reverse.flatMap writeChoice ∧
      (decisions.map Prod.fst).reverse ++ outcome.window.undecided
        = window.undecided ++ (window.remaining model input).1 ∧
      (window.remaining model input).2 = found outcome ∧
      (outcome.fault = none → outcome.window.undecided = []) := by
  subst houtcome
  fun_induction drain model window input generalizing history with
  | case1 window input window' fault rest hrefill =>
      -- The units in front of the broken sequence are ahead now.
      obtain ⟨units, rfl, hremaining⟩ := remaining_of_refill_error (underway_of_run hrun) hrefill
      refine ⟨[], hrun.broken hrefill, rfl, ?_, ?_, by simp⟩
      · simp [undecided, hremaining]
      · simp [found, hremaining]
  | case2 window input window' rest hrefill hahead =>
      have hrefilled := refilled_refill (underway_of_run hrun) hrefill
      obtain ⟨units, hunits, hremaining⟩ := remaining_refill (underway_of_run hrun) hrefill
      obtain ⟨hended, hpending⟩ := hrefilled.done hahead
      rw [remaining_of_ended hended, List.append_nil] at hremaining
      refine ⟨[], hrun.next hrefill hahead, rfl, ?_, ?_, ?_⟩
      · simp [undecided, ← hrefilled.pending_eq, hremaining, hunits]
      · simp [found, hremaining]
      · simp [undecided, hpending, hahead]
  | case3 window input window' rest hrefill hahead _ _ ih =>
      -- One step, whose decisions come before those of the other steps.
      have hrefilled := refilled_refill (underway_of_run hrun) hrefill
      obtain ⟨units, hunits, hremaining⟩ := remaining_refill (underway_of_run hrun) hrefill
      obtain ⟨decisions, hstands, hwritten, haccount, hfound, hdone⟩ :=
        ih (hrun.step hrefill hahead)
      rw [remaining_step] at haccount hfound
      refine ⟨decisions ++ window'.decided model, ?_, ?_, ?_, ?_, hdone⟩
      · rw [List.append_assoc]
        exact hstands
      · simp [Outcome.after, Event.written, step_text, hwritten]
      · have hundecided : window.undecided ++ units = window'.undecided := by
          simp [undecided, hunits, hrefilled.pending_eq]
        rw [hremaining, ← List.append_assoc, hundecided,
          ← undecided_step hrefilled.underway.linked, List.append_assoc, ← haccount]
        simp [Outcome.after]
      · rw [hremaining, hfound]
        rfl

/-! ## Calls -/

/-- A window after some calls, each with its input and with the text that it wrote, whatever became
of the call. -/
inductive Called (model : Model α) : List (Bytes × Text) → Window α → Prop
  | initial : Called model [] .initial
  | call {calls : List (Bytes × Text)} {window : Window α} (h : Called model calls window)
      (flushSegments : Bool) (bytes : Bytes) :
      Called model
        (calls ++ [(bytes, Event.written (window.process model flushSegments bytes).events)])
        (window.process model flushSegments bytes).window

/-- The text of an entry of the output: a unit with its chosen target, or a separator. -/
def writeEntry : Option Decision → Text
  | some decision => writeChoice decision
  | none => [Input.segmentSeparator]

/-- A log of decisions is written as the decisions are. -/
lemma flatMap_writeEntry (decisions : List Decision) :
    (decisions.map some).flatMap writeEntry = decisions.flatMap writeChoice := by
  simp [List.flatMap_map, writeEntry]

lemma reduceOption_map_some (decisions : List Decision) :
    (decisions.map some).reduceOption = decisions := by
  simp [List.reduceOption, List.filterMap_map]

/-- What draining from the beginning of a segment leaves. -/
lemma drain_accounts (hstands : Stands model history window) {outcome : Outcome α}
    (houtcome : drain model { window with ended := false } input = outcome) :
    ∃ segment : List Decision, Stands model (segment.reverse ++ history) outcome.window ∧
      Event.written outcome.events = segment.flatMap writeChoice ∧
      segment.map Prod.fst ++ outcome.window.undecided
        = window.undecided ++ (model.segmentUnits input).1 ∧
      (model.segmentUnits input).2 = found outcome ∧
      (outcome.fault = none → outcome.window.undecided = []) := by
  obtain ⟨decisions, hstands', hwritten, haccount, hfound, hdone⟩ :=
    remaining_drain (hstands input) houtcome
  rw [remaining_next] at haccount hfound
  refine ⟨decisions.reverse, by simpa using hstands', hwritten, ?_, hfound, hdone⟩
  rw [List.map_reverse]
  exact haccount

omit [Zero α] [Add α] [Sub α] [Ord α] in
/-- The units of a segment behind which the input ends, or in which it is broken. -/
lemma readableUnits_of_found {outcome : Outcome α} (hne : input ≠ [])
    (hfound : (model.segmentUnits input).2 = found outcome)
    (hlast : outcome.fault = none → outcome.rest = []) :
    model.readableUnits input = (model.segmentUnits input).1 := by
  refine Model.readableUnits_of_last hne rfl ?_
  intro c rest hok
  rw [hfound, found] at hok
  cases hfault : outcome.fault with
  | none => simp [hfault, hlast hfault] at hok
  | some fault => simp [hfault] at hok

/-- **A call loses no unit**, whatever becomes of it. -/
lemma processInput_accounts {flushSegments : Bool} (hstands : Stands model history window)
    {outcome : Outcome α} (houtcome : window.processInput model flushSegments input = outcome) :
    ∃ log : List (Option Decision),
      Stands model (log.reduceOption.reverse ++ history) outcome.window ∧
      Event.written outcome.events = log.flatMap writeEntry ∧
      log.reduceOption.map Prod.fst ++ outcome.window.undecided
        = window.undecided ++ model.readableUnits input := by
  subst houtcome
  fun_induction processInput model flushSegments window input generalizing history with
  | case1 window => exact ⟨[], hstands, rfl, by simp [Model.readableUnits]⟩
  | case2 window n rest =>
      have hunits : model.readableUnits (.broken n :: rest) = [] :=
        Model.readableUnits_of_last (by simp)
          (Model.segmentUnits_of_error (Model.readUnit_broken n rest)) (by simp)
      exact ⟨[], hstands, rfl, by simp [hunits]⟩
  | case3 window item items =>
      -- Reading stops in this segment.
      rename_i drained fault hfault
      obtain ⟨segment, hstands', hwritten, haccount, hfound, -⟩ :=
        drain_accounts hstands (show _ = drained from rfl)
      rw [readableUnits_of_found (List.cons_ne_nil item items) hfound (by simp [hfault])]
      refine ⟨segment.map some, ?_, ?_, ?_⟩
      · rwa [reduceOption_map_some]
      · rw [flatMap_writeEntry, hwritten]
      · rw [reduceOption_map_some, haccount]
  | case4 window item items =>
      -- The input ends with this segment.
      rename_i drained hfault hrest
      obtain ⟨segment, hstands', hwritten, haccount, hfound, -⟩ :=
        drain_accounts hstands (show _ = drained from rfl)
      rw [readableUnits_of_found (List.cons_ne_nil item items) hfound fun _ => hrest]
      refine ⟨segment.map some, ?_, ?_, ?_⟩
      · rwa [reduceOption_map_some]
      · rw [flatMap_writeEntry, written_append, hwritten]
        simp [Event.written]
      · rw [reduceOption_map_some, haccount]
  | case5 window item items =>
      -- No broken sequence is at the end of a segment.
      rename_i drained n rest hfault hrest
      obtain ⟨segment, -, -, -, hfound, -⟩ := drain_accounts hstands (show _ = drained from rfl)
      simp only [found, hfault, hrest] at hfound
      cases (Model.segment_of_segmentUnits (Prod.ext rfl hfound)).separator
  | case6 window item items =>
      -- A separator stands behind this segment, and the call goes on behind it.
      rename_i drained c rest hfault hrest _ ih
      obtain ⟨segment, hstands', hwritten, haccount, hfound, hdone⟩ :=
        drain_accounts hstands (show _ = drained from rfl)
      simp only [found, hfault, hrest] at hfound
      have hsegment : model.segmentUnits (item :: items)
          = ((model.segmentUnits (item :: items)).1, .ok () (.char c :: rest)) :=
        Prod.ext rfl hfound
      obtain ⟨⟩ := (Model.segment_of_segmentUnits hsegment).separator
      obtain ⟨log, hstands'', hwritten', haccount'⟩ := ih hstands'
      refine ⟨segment.map some ++ none :: log, ?_, ?_, ?_⟩
      · simpa [List.reduceOption_append, reduceOption_map_some, Outcome.after] using hstands''
      · simp [Outcome.after, written_append, hwritten, hwritten', Event.written,
          flatMap_writeEntry, writeEntry]
      · rw [hdone hfault, List.append_nil] at haccount
        rw [hdone hfault, List.nil_append] at haccount'
        rw [Model.readableUnits_of_separator (List.cons_ne_nil item items) hsegment,
          ← List.append_assoc, ← haccount, ← haccount']
        simp [List.reduceOption_append, reduceOption_map_some, Outcome.after]

/-- After any calls the log of their decisions has been written, and with the units that wait it
accounts for the units of all texts. -/
lemma called_stands {calls : List (Bytes × Text)} (h : Called model calls window) :
    ∃ log : List (Option Decision), Stands model log.reduceOption.reverse window ∧
      calls.flatMap Prod.snd = log.flatMap writeEntry ∧
      log.reduceOption.map Prod.fst ++ window.undecided
        = calls.flatMap fun call => model.readableUnits (.ofBytes call.1) := by
  induction h with
  | initial => exact ⟨[], rests_initial.run, rfl, rfl⟩
  | call _ flushSegments bytes ih =>
      obtain ⟨log, hstands, hwritten, haccount⟩ := ih
      obtain ⟨log', hstands', hwritten', haccount'⟩ := processInput_accounts hstands rfl
      refine ⟨log ++ log', ?_, ?_, ?_⟩
      · rw [List.reduceOption_append, List.reverse_append]
        exact hstands'
      · rw [List.flatMap_append, List.flatMap_append, hwritten, ← hwritten']
        simp [process]
      · rw [List.flatMap_append, ← haccount, List.append_assoc]
        simp [List.reduceOption_append, process, haccount']

/-! ## Units that a failed call left -/

/-- What is written behind a segment: nothing where the input ends, and else the separator and then
the units of the other segments. -/
inductive Continues (model : Model α) : Input → Text → Prop
  | done : Continues model [] []
  | separator {rest : Input} {segments : List (List Decision)} {text : Text}
      (h : Selection model rest segments text) :
      Continues model (.char Input.segmentSeparator :: rest) (Input.segmentSeparator :: text)

/-- Draining a segment to its end writes the units that wait, and then those of the segment. -/
lemma drain_waiting (hstands : Stands model history window) {outcome : Outcome α}
    (houtcome : drain model { window with ended := false } input = outcome)
    (hfault : outcome.fault = none) :
    ∃ waiting segment : List Decision, waiting.map Prod.fst = window.undecided ∧
      Rests model ((waiting ++ segment).reverse ++ history) outcome.window ∧
      model.Segment input (segment.map Prod.fst) outcome.rest ∧
      Event.written outcome.events = (waiting ++ segment).flatMap writeChoice := by
  obtain ⟨decisions, hstands', hwritten, haccount, hfound, hdone⟩ := drain_accounts hstands houtcome
  rw [hdone hfault, List.append_nil] at haccount
  obtain ⟨waiting, segment, rfl, hwaiting, hsegment⟩ := List.map_eq_append_iff.1 haccount
  refine ⟨waiting, segment, hwaiting, ⟨hstands', hdone hfault⟩, ?_, hwritten⟩
  rw [hsegment]
  refine Model.segment_of_segmentUnits (Prod.ext rfl ?_)
  rw [hfound, found, hfault]

/-- A call that comes to its end writes the units that wait in front of its first segment. -/
lemma processInput_waiting {flushSegments : Bool} (hstands : Stands model history window)
    (hne : input ≠ []) {outcome : Outcome α}
    (houtcome : window.processInput model flushSegments input = outcome)
    (hfault : outcome.fault = none) :
    ∃ (waiting segment : List Decision) (rest : Input) (behind : Text),
      waiting.map Prod.fst = window.undecided ∧
      (∀ decision ∈ waiting ++ segment, Decision.Valid decision) ∧
      model.Segment input (segment.map Prod.fst) rest ∧ Continues model rest behind ∧
      Event.written outcome.events = (waiting ++ segment).flatMap writeChoice ++ behind ∧
      outcome.window.undecided = [] := by
  subst houtcome
  have hvalid : ∀ {decisions : List Decision} {window' : Window α},
      Rests model (decisions.reverse ++ history) window' →
        ∀ decision ∈ decisions, Decision.Valid decision := by
    intro decisions window' hrests decision hdecision
    exact valid_of_run (hrests.run []) decision (by simp [hdecision])
  revert hfault
  fun_cases processInput model flushSegments window input with
  | case1 => exact absurd rfl hne
  | case2 => simp
  | case3 =>
      rename_i hdrained
      simp [hdrained]
  | case4 item items =>
      -- The input ends with its first segment.
      rename_i drained hdrained hrest
      intro _
      obtain ⟨waiting, segment, hwaiting, hrests, hsegment, hwritten⟩ :=
        drain_waiting hstands (show _ = drained from rfl) hdrained
      refine ⟨waiting, segment, [], [], hwaiting, hvalid hrests, hrest ▸ hsegment, .done, ?_,
        hrests.undecided⟩
      simp [written_append, hwritten, Event.written]
  | case5 => simp
  | case6 item items =>
      -- Behind the separator nothing is left of the units that waited.
      rename_i drained c rest hdrained hrest _
      intro hfault
      obtain ⟨waiting, segment, hwaiting, hrests, hsegment, hwritten⟩ :=
        drain_waiting hstands (show _ = drained from rfl) hdrained
      rw [hrest] at hsegment
      obtain ⟨⟩ := hsegment.separator
      obtain ⟨segments, hrests', hselection, -⟩ := selection_processInput hrests hfault
      refine ⟨waiting, segment, _, _, hwaiting, hvalid hrests, hsegment, .separator hselection, ?_,
        hrests'.undecided⟩
      simp [Outcome.after, written_append, hwritten, Event.written]

/-- **Calls account for all units**, also when some of them fail.  At the end of each call the units
that have been written, each with a target of its own, and behind them those that wait in the window
are the units that could be read from the inputs so far, each once and in their order.

The next call on an input that is not empty and not broken comes to its end.  It writes the units
that waited, then those of the first segment of its input, and only then a separator and what is
behind it; and no unit waits afterwards. -/
theorem called_accounts_for_units {calls : List (Bytes × Text)} (h : Called model calls window) :
    (∃ log : List (Option Decision),
      calls.flatMap Prod.snd = log.flatMap writeEntry ∧
      (∀ decision ∈ log.reduceOption, Decision.Valid decision) ∧
      log.reduceOption.map Prod.fst ++ window.undecided
        = calls.flatMap fun call => model.readableUnits (.ofBytes call.1)) ∧
    ∀ flushSegments bytes, bytes ≠ [] → ¬ (Input.ofBytes bytes).Broken →
      let outcome := window.process model flushSegments bytes
      outcome.fault = none ∧
      ∃ (waiting segment : List Decision) (rest : Input) (behind : Text),
        waiting.map Prod.fst = window.undecided ∧
        (∀ decision ∈ waiting ++ segment, Decision.Valid decision) ∧
        model.Segment (.ofBytes bytes) (segment.map Prod.fst) rest ∧ Continues model rest behind ∧
        Event.written outcome.events = (waiting ++ segment).flatMap writeChoice ++ behind ∧
        outcome.window.undecided = [] := by
  obtain ⟨log, hstands, hwritten, haccount⟩ := called_stands h
  refine ⟨⟨log, hwritten, ?_, haccount⟩, ?_⟩
  · intro decision hdecision
    exact valid_of_run (hstands []) decision (by simpa using hdecision)
  · intro flushSegments bytes hne hwhole outcome
    have hfault : outcome.fault = none := by
      rw [Option.eq_none_iff_forall_ne_some]
      intro fault hfault
      exact hwhole (broken_of_processInput hfault)
    exact ⟨hfault, processInput_waiting hstands (Input.ofBytes_ne_nil hne) rfl hfault⟩

/-- A call that is stopped in its second unit has written nothing, and its first unit waits.  The
next call writes that unit in front of its own one. -/
theorem called_accounts_for_units_broken :
    let model : Model Int := { lookahead := 1 }
    let failed := Window.initial.process model false (Text.utf8 "^a/b/c$ ^d/e".toList ++ [0xFF])
    let next := failed.window.process model false (Text.utf8 " ^f/g$\x00x".toList)
    failed.fault = some ⟨12⟩ ∧ Event.written failed.events = [] ∧
      failed.window.undecided.map (LexicalUnit.write 0 true true) = ["^a/b/c$".toList] ∧
      next.fault = none ∧ Event.written next.events = "^a/b$ ^f/g$\x00x".toList ∧
      ∃ waiting segment : List Decision, ∃ behind,
        waiting.map Prod.fst = failed.window.undecided ∧
        Event.written next.events = (waiting ++ segment).flatMap writeChoice ++ behind := by
  intro model failed next
  have hcalled : Called model _ failed.window := Called.initial.call false _
  have hwhole : ¬ (Input.ofBytes (Text.utf8 " ^f/g$\x00x".toList)).Broken := by
    rw [show Input.ofBytes (Text.utf8 " ^f/g$\x00x".toList) = .ofText " ^f/g$\x00x".toList
      from Utf8.items_utf8 _]
    exact Input.not_broken_ofText _
  obtain ⟨hfault, waiting, segment, -, behind, hwaiting, -, -, -, hwritten, -⟩ :=
    (called_accounts_for_units hcalled).2 false _ (by decide) hwhole
  exact ⟨by decide +kernel, by decide +kernel, by decide +kernel, hfault, by decide +kernel,
    waiting, segment, behind, hwaiting, hwritten⟩

end Window

end LexicalSelection
