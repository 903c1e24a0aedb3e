import LexicalSelection.Proofs.LexicalUnit.Local
import LexicalSelection.Proofs.Selector.Copying

/-!
# Inputs that are split behind a separator

A segment is written to its end before the separator behind it is taken, and nothing behind that has
been looked at then.  So an input can be split there: two calls on its parts do what one call on all
of it does.

* `refill_behind`, `drain_behind` — reading ahead and draining, with something else behind the first
  item that they leave.
* `Echoed` — selecting in an input comes to a separator and writes it.
* **`processInput_of_echoed`** — what comes before is the same whatever is behind the separator.
* **`process_split`** — one call on an input, and two calls on its parts.
-/

namespace LexicalSelection.Window

variable {α : Type} {model : Model α} {window window' : Window α} {input kept behind rest : Input}
  {item : Item} {flushSegments : Bool}

/-! ## What is behind a segment -/

lemma readAhead_behind {count : Nat} {units : List LexicalUnit} {ended : Bool}
    (h : readAhead model count input = (units, .ok ended (kept ++ item :: behind))) :
    ∃ front, input = front ++ item :: behind ∧ ∀ behind',
      readAhead model count (front ++ item :: behind')
        = (units, .ok ended (kept ++ item :: behind')) := by
  induction count generalizing input units with
  | zero =>
      cases h
      exact ⟨kept, rfl, fun _ => rfl⟩
  | succ count ih =>
      simp only [readAhead] at h
      split at h
      · cases h
      · rename_i unit rest hunit
        split at h
        · rename_i hend
          cases h
          obtain ⟨front, rfl, hfront⟩ := model.local_readUnit hunit
          refine ⟨front, rfl, fun behind' => ?_⟩
          simp only [readAhead, hfront behind', hend, if_true]
        · rename_i hopen
          obtain ⟨rfl, hfound⟩ := Prod.mk.inj h
          obtain ⟨middle, rfl, hmiddle⟩ := ih (Prod.ext rfl hfound)
          obtain ⟨front, rfl, hfront⟩ := model.local_readUnit hunit
          refine ⟨front, rfl, fun behind' => ?_⟩
          simp only [readAhead, hfront behind', if_neg hopen, hmiddle behind']

lemma refill_behind
    (h : window.refill model input = (window', .ok () (kept ++ item :: behind))) :
    ∃ front, input = front ++ item :: behind ∧ ∀ behind',
      window.refill model (front ++ item :: behind')
        = (window', .ok () (kept ++ item :: behind')) := by
  simp only [refill] at h
  split at h
  · rename_i hcomplete
    cases h
    exact ⟨kept, rfl, fun _ => by rw [refill, if_pos hcomplete]⟩
  · rename_i hcomplete
    split at h
    · rename_i ended rest hfound
      cases h
      obtain ⟨front, rfl, hfront⟩ := readAhead_behind (Prod.ext rfl hfound)
      refine ⟨front, rfl, fun behind' => ?_⟩
      simp only [refill, if_neg hcomplete, hfront behind']
    · cases h

variable [Zero α] [Add α] [Sub α] [Ord α]

lemma drain_of_fault {fault : BrokenSequence}
    (hrefill : window.refill model input = (window', .error fault rest)) :
    window.drain model input = { window := window', rest, fault := some fault } := by
  rw [drain]
  split
  · rename_i hrefill'
    cases hrefill.symm.trans hrefill'
    rfl
  · rename_i hrefill'
    cases hrefill.symm.trans hrefill'

lemma drain_of_done (hrefill : window.refill model input = (window', .ok () rest))
    (hahead : window'.ahead = []) : window.drain model input = { window := window', rest } := by
  rw [drain]
  split
  · rename_i hrefill'
    cases hrefill.symm.trans hrefill'
  · rename_i hrefill'
    cases hrefill.symm.trans hrefill'
    rw [dif_pos hahead]

lemma drain_of_step (hrefill : window.refill model input = (window', .ok () rest))
    (hahead : window'.ahead ≠ []) : window.drain model input
      = ((window'.step model).1.drain model rest).after [.write (window'.step model).2] := by
  rw [drain]
  split
  · rename_i hrefill'
    cases hrefill.symm.trans hrefill'
  · rename_i hrefill'
    cases hrefill.symm.trans hrefill'
    rw [dif_neg hahead]

/-- **Draining a segment does not depend on what is behind the next item.** -/
lemma drain_behind {outcome : Outcome α} (houtcome : window.drain model input = outcome)
    (hfault : outcome.fault = none) (hrest : outcome.rest = kept ++ item :: behind) :
    ∃ front, input = front ++ item :: behind ∧ ∀ behind',
      window.drain model (front ++ item :: behind')
        = { outcome with rest := kept ++ item :: behind' } := by
  subst houtcome
  fun_induction drain model window input with
  | case1 => cases hfault
  | case2 window input window' rest hrefill hahead =>
      obtain rfl : rest = kept ++ item :: behind := hrest
      obtain ⟨front, rfl, hfront⟩ := refill_behind hrefill
      exact ⟨front, rfl, fun behind' => drain_of_done (hfront behind') hahead⟩
  | case3 window input window' rest hrefill hahead _ _ ih =>
      obtain ⟨middle, rfl, hmiddle⟩ := ih hfault hrest
      obtain ⟨front, rfl, hfront⟩ := refill_behind hrefill
      refine ⟨front, rfl, fun behind' => ?_⟩
      rw [drain_of_step (hfront behind') hahead, hmiddle behind']
      rfl

/-! ## Separators that are written -/

/-- Selecting in an input comes to a separator, which it takes and writes: this is what is behind
the separator. -/
inductive Echoed (model : Model α) : Window α → Input → Input → Prop
  | here {window : Window α} {c : Char} {items behind : Input} {outcome : Outcome α}
      (houtcome : drain model { window with ended := false } (.char c :: items) = outcome)
      (hfault : outcome.fault = none)
      (hrest : outcome.rest = .char Input.segmentSeparator :: behind) :
      Echoed model window (.char c :: items) behind
  | later {window : Window α} {c : Char} {items rest behind : Input} {outcome : Outcome α}
      (houtcome : drain model { window with ended := false } (.char c :: items) = outcome)
      (hfault : outcome.fault = none)
      (hrest : outcome.rest = .char Input.segmentSeparator :: rest)
      (h : Echoed model outcome.window rest behind) : Echoed model window (.char c :: items) behind

/-- What happens to the output behind a segment, where a separator stands. -/
def separatorEvents (flushSegments : Bool) : List Event :=
  .write [Input.segmentSeparator] :: if flushSegments then [.flush] else []

/-- What a call comes to, by what draining its first segment comes to. -/
lemma processInput_of_drain {items : Input} {outcome : Outcome α} (hitem : ∀ n, item ≠ .broken n)
    (houtcome : drain model { window with ended := false } (item :: items) = outcome) :
    window.processInput model flushSegments (item :: items)
      = match outcome.fault, outcome.rest with
        | some _, _ => outcome
        | none, [] => { outcome with events := outcome.events ++ [.flush] }
        | none, .broken n :: rest => { outcome with rest, fault := some ⟨n⟩ }
        | none, .char c :: rest => (outcome.window.processInput model flushSegments rest).after
            (outcome.events ++ .write [c] :: if flushSegments then [.flush] else []) := by
  subst houtcome
  cases item with
  | broken n => exact absurd rfl (hitem n)
  | char c =>
      rw [processInput.eq_def]
      dsimp only
      split
      · rename_i hfault
        simp [hfault]
      all_goals
        rename_i hfault hrest
        simp [hfault, hrest]

lemma processInput_of_separator {c : Char} {items : Input} {outcome : Outcome α}
    (houtcome : drain model { window with ended := false } (.char c :: items) = outcome)
    (hfault : outcome.fault = none)
    (hrest : outcome.rest = .char Input.segmentSeparator :: rest) :
    window.processInput model flushSegments (.char c :: items)
      = (outcome.window.processInput model flushSegments rest).after
          (outcome.events ++ separatorEvents flushSegments) := by
  rw [processInput_of_drain (by simp) houtcome]
  simp only [hfault, hrest]
  rfl

omit [Zero α] [Add α] [Sub α] [Ord α] in
lemma after_after (events events' : List Event) (outcome : Outcome α) :
    (outcome.after events').after events = outcome.after (events ++ events') := by
  simp [Outcome.after]

/-- The first character of an input is still there with something else behind a later item. -/
lemma exists_char_front {c : Char} {items front behind : Input}
    (h : .char c :: items = front ++ item :: behind) (behind' : Input) :
    ∃ items', front ++ item :: behind' = .char c :: items' := by
  cases front with
  | nil => exact ⟨behind', by rw [(List.cons.inj h).1]; rfl⟩
  | cons first front => exact ⟨front ++ item :: behind', by rw [(List.cons.inj h).1]; rfl⟩

/-- **What comes before a separator that is written is the same whatever is behind it.** -/
lemma processInput_of_echoed (h : Echoed model window input behind) (flushSegments : Bool) :
    ∃ (front : Input) (earlier : List Event) (window' : Window α),
      input = front ++ behind ∧
        ∀ behind', window.processInput model flushSegments (front ++ behind')
        = (window'.processInput model flushSegments behind').after
            (earlier ++ separatorEvents flushSegments) := by
  induction h with
  | @here window c items behind outcome houtcome hfault hrest =>
      obtain ⟨front, hinput, hfront⟩ :=
        drain_behind houtcome hfault (hrest.trans (List.nil_append _).symm)
      refine ⟨front ++ [.char Input.segmentSeparator], outcome.events, outcome.window,
        by simp [hinput], fun behind' => ?_⟩
      obtain ⟨items', hitems'⟩ := exists_char_front hinput behind'
      have hdrained := hfront behind'
      rw [hitems'] at hdrained
      rw [List.append_assoc, List.singleton_append, hitems',
        processInput_of_separator hdrained hfault rfl]
  | @later window c items rest behind outcome houtcome hfault hrest _ ih =>
      obtain ⟨second, earlier, window', rfl, hsecond⟩ := ih
      obtain ⟨first, hinput, hfirst⟩ :=
        drain_behind houtcome hfault (hrest.trans (List.nil_append _).symm)
      refine ⟨first ++ .char Input.segmentSeparator :: second,
        outcome.events ++ separatorEvents flushSegments ++ earlier, window', by simp [hinput],
        fun behind' => ?_⟩
      obtain ⟨items', hitems'⟩ := exists_char_front hinput (second ++ behind')
      have hdrained := hfirst (second ++ behind')
      rw [hitems'] at hdrained
      rw [List.append_assoc, List.cons_append, hitems',
        processInput_of_separator hdrained hfault rfl, hsecond]
      simp only [after_after, List.append_assoc]

/-! ## Calls -/

/-- **An input can be split behind a separator that is written.**  After calls that came to their
end, take a text in two parts, where selecting in the whole of it writes a separator right before
the second part.  One call on the whole and two calls on the parts come to their end; they write the
same, and leave the same window with the same score.

The first of the two calls has written a selection in all of its part, and nothing waits behind it.
It is flushed behind the separator where that is asked for, and happens in the same way whatever
bytes come behind the first part. -/
theorem process_split {calls : List (Bytes × Text)} (h : Served model calls window)
    (flushSegments : Bool) (front back : Text)
    (hechoed : Echoed model window (.ofText (front ++ back)) (.ofText back)) :
    let whole := window.process model flushSegments (Text.utf8 (front ++ back))
    let first := window.process model flushSegments front.utf8
    let second := first.window.process model flushSegments back.utf8
    (whole.fault = none ∧ first.fault = none ∧ second.fault = none) ∧
    Event.written whole.events = Event.written first.events ++ Event.written second.events ∧
    whole.window = second.window ∧
    ∃ earlier segments,
      first.events = earlier ++ separatorEvents flushSegments ++ [.flush] ∧
      Selection model (.ofText front) segments (Event.written first.events) ∧
      first.window.undecided = [] ∧
      ∀ bytes, ∃ later, (window.process model flushSegments (front.utf8 ++ bytes)).events
        = earlier ++ separatorEvents flushSegments ++ later := by
  intro whole first second
  obtain ⟨taken, earlier, window', hinput, htaken⟩ := processInput_of_echoed hechoed flushSegments
  rw [Input.ofText_append] at hinput
  obtain rfl := List.append_cancel_right hinput
  have hofText : ∀ text : Text, Input.ofBytes text.utf8 = .ofText text := Utf8.items_utf8
  have hfirst : first = { events := earlier ++ separatorEvents flushSegments ++ [.flush],
                          window := window', rest := [] } := by
    have hnothing := htaken []
    rw [List.append_nil, ← hofText] at hnothing
    exact hnothing.trans (by simp [processInput, Outcome.after])
  have hwhole : whole = second.after (earlier ++ separatorEvents flushSegments) := by
    have hback := htaken (.ofText back)
    rw [← Input.ofText_append, ← hofText, ← hofText] at hback
    have hsecond : second = window'.process model flushSegments back.utf8 := by
      simp only [second, hfirst]
    rw [hsecond]
    exact hback
  have hsecond : second.fault = none := by
    rw [Option.eq_none_iff_forall_ne_some]
    intro fault hfault
    exact Input.not_broken_ofText back (hofText back ▸ broken_of_processInput hfault)
  obtain ⟨logs, hrests, -⟩ := selection_of_served h
  obtain ⟨segments, hrests', hselection, -⟩ :=
    selection_processInput hrests (show first.fault = none by rw [hfirst])
  refine ⟨⟨?_, ?_, hsecond⟩, ?_, ?_, earlier, segments, ?_, ?_, hrests'.undecided, ?_⟩
  · rw [hwhole]
    exact hsecond
  · rw [hfirst]
  · rw [hwhole, hfirst]
    simp [Outcome.after, written_append, Event.written]
  · rw [hwhole]
    rfl
  · rw [hfirst]
  · rw [← hofText]
    exact hselection
  · intro bytes
    obtain ⟨behind', hbytes⟩ : ∃ behind', Input.ofBytes (front.utf8 ++ bytes)
        = .ofText front ++ behind' := ⟨_, Utf8.itemsFrom_utf8_append 0 front bytes⟩
    refine ⟨(window'.processInput model flushSegments behind').events, ?_⟩
    rw [process, hbytes, htaken]
    rfl

/-- The first unit of this input is not closed, so that the separator ends it.  Whatever becomes of
the second one, the first one has been written and flushed before it is read. -/
theorem process_split_unclosed :
    let model : Model Int := { lookahead := 1 }
    let first := Window.initial.process model true (Text.utf8 "^a/b/c\x00".toList)
    let second := first.window.process model true (Text.utf8 " ^d/e/f$".toList)
    let whole := Window.initial.process model true (Text.utf8 "^a/b/c\x00 ^d/e/f$".toList)
    Event.written first.events = "^a/b$\x00".toList ∧
      Event.written second.events = " ^d/e$".toList ∧
      Event.written whole.events = Event.written first.events ++ Event.written second.events ∧
      whole.window = second.window := by
  intro model first second whole
  have hechoed : Echoed model .initial (.ofText ("^a/b/c\x00".toList ++ " ^d/e/f$".toList))
      (.ofText " ^d/e/f$".toList) :=
    .here rfl (by decide +kernel) (by decide +kernel)
  obtain ⟨-, hwritten, hwindow, -⟩ := process_split .initial true _ _ hechoed
  exact ⟨by decide +kernel, by decide +kernel, hwritten, hwindow⟩

end LexicalSelection.Window
