import LexicalSelection.Proofs.Model.Features
import LexicalSelection.Proofs.Selector.Run
import Mathlib.Algebra.Order.Ring.Int

/-!
# What selecting changes in a text

Selecting copies a text from its first character to its last.  All that it changes are the units: of
several targets one is kept, and a unit that was cut off is closed.

* `Input.Broken` is the only reason for a call to fail (`broken_of_process`).
* `Part` — a unit of a text with the targets that are kept, a blank behind the last unit of a
  segment, or a separator.
* `Reads` — the parts of a text, as its units are read.
* **`process_copies`** — a call on a text comes to its end and writes the text, part by part, with
  the kept targets.
-/

namespace LexicalSelection

variable {α : Type} {model : Model α} {input rest : Input}

/-! ## Why a call fails -/

lemma Input.Broken.of_suffix (h : rest.Broken) (hsuffix : rest <:+ input) : input.Broken := by
  obtain ⟨front, rfl⟩ := hsuffix
  exact h.append_left

/-- What is left behind a unit is an end of the input. -/
lemma Model.suffix_of_readUnit {unit : LexicalUnit} (h : model.readUnit input = .ok unit rest) :
    rest <:+ input := by
  obtain ⟨bare, hbare, rfl⟩ := Input.map_eq_ok.1 h
  obtain ⟨closed, hinput, -⟩ := LexicalUnit.spelling_of_read hbare
  exact ⟨_, hinput.symm⟩

/-- Reading a unit fails only in an input with a broken sequence. -/
lemma Model.broken_of_readUnit {fault : BrokenSequence}
    (h : model.readUnit input = .error fault rest) : input.Broken :=
  LexicalUnit.broken_of_read (Input.map_eq_error h)

namespace Window

variable {window window' : Window α} {count : Nat} {fault : BrokenSequence}

/-- What is left behind units read ahead is an end of the input. -/
lemma suffix_of_readAhead {ended : Bool} (h : (readAhead model count input).2 = .ok ended rest) :
    rest <:+ input := by
  induction count generalizing input with
  | zero => cases h; exact List.suffix_rfl
  | succ count ih =>
      simp only [readAhead] at h
      split at h
      · cases h
      · rename_i unit behind hunit
        have hsuffix := Model.suffix_of_readUnit hunit
        split at h
        · cases h
          exact hsuffix
        · exact (ih h).trans hsuffix

/-- Reading ahead fails only in an input with a broken sequence. -/
lemma broken_of_readAhead (h : (readAhead model count input).2 = .error fault rest) :
    input.Broken := by
  induction count generalizing input with
  | zero => cases h
  | succ count ih =>
      simp only [readAhead] at h
      split at h
      · rename_i hunit
        exact Model.broken_of_readUnit hunit
      · rename_i unit behind hunit
        split at h
        · cases h
        · exact (ih h).of_suffix (Model.suffix_of_readUnit hunit)

lemma suffix_of_refill (h : window.refill model input = (window', .ok () rest)) :
    rest <:+ input := by
  simp only [refill] at h
  split at h
  · cases h
    exact List.suffix_rfl
  · split at h
    · rename_i ended behind hfound
      cases h
      exact suffix_of_readAhead hfound
    · cases h

lemma broken_of_refill (h : window.refill model input = (window', .error fault rest)) :
    input.Broken := by
  simp only [refill] at h
  split at h
  · cases h
  · split at h
    · cases h
    · rename_i fault' behind hfound
      exact broken_of_readAhead hfound

variable [Zero α] [Add α] [Sub α] [Ord α]

/-- What is left behind a segment is an end of the input. -/
lemma suffix_of_drain (h : (window.drain model input).fault = none) :
    (window.drain model input).rest <:+ input := by
  fun_induction drain model window input with
  | case1 => simp at h
  | case2 window input window' rest hrefill _ => exact suffix_of_refill hrefill
  | case3 window input window' rest hrefill _ _ _ ih =>
      exact (ih h).trans (suffix_of_refill hrefill)

/-- Draining a segment fails only in an input with a broken sequence. -/
lemma broken_of_drain (h : (window.drain model input).fault = some fault) : input.Broken := by
  fun_induction drain model window input with
  | case1 window input window' fault' rest hrefill => exact broken_of_refill hrefill
  | case2 => simp at h
  | case3 window input window' rest hrefill _ _ _ ih =>
      exact (ih h).of_suffix (suffix_of_refill hrefill)

/-- **A call fails only at a broken sequence.** -/
lemma broken_of_processInput {flushSegments : Bool}
    (h : (window.processInput model flushSegments input).fault = some fault) : input.Broken := by
  fun_induction processInput model flushSegments window input with
  | case1 => simp at h
  | case2 window n rest => exact Input.broken_cons n rest
  | case3 => exact broken_of_drain h
  | case4 =>
      rename_i hdrained hrest
      simp [hdrained] at h
  | case5 =>
      rename_i n rest hdrained hrest
      have hsuffix := suffix_of_drain hdrained
      exact Input.Broken.of_suffix (hrest ▸ Input.broken_cons n rest) hsuffix
  | case6 =>
      rename_i c rest hdrained hrest _ ih
      have hsuffix := suffix_of_drain hdrained
      exact Input.Broken.of_suffix (hrest ▸ (ih h).cons _) hsuffix

end Window

/-! ## The parts of a text -/

/-- A part of a text that selecting works through. -/
inductive Part where
  /-- A unit as it was read, closed or cut off, with the targets that are kept of it. -/
  | word (unit : LexicalUnit) (closed : Bool) (kept : List Reading)
  /-- The blank behind the last unit of a segment. -/
  | blank (text : Text)
  /-- The separator behind a segment. -/
  | separator

namespace Part

/-- The part as it was read. -/
def before : Part → Text
  | .word unit closed _ => unit.spelling closed
  | .blank text => text
  | .separator => [Input.segmentSeparator]

/-- The part as it is written. -/
def behind : Part → Text
  | .word unit _ kept => { unit with targets := kept }.spelling true
  | .blank text => text
  | .separator => [Input.segmentSeparator]

/-- Of two or more targets just one is kept, and else all there is. -/
def Kept : Part → Prop
  | .word unit _ kept =>
    if unit.targets.length ≤ 1 then kept = unit.targets
    else ∃ target ∈ unit.targets, kept = [target]
  | _ => True

/-- A unit that leaves no choice and was not cut off, or no unit at all. -/
def Plain : Part → Prop
  | .word unit closed _ => unit.targets.length ≤ 1 ∧ closed = true
  | _ => True

/-- A plain part is written as it was read. -/
lemma Plain.behind_eq {part : Part} (hkept : part.Kept) (h : part.Plain) :
    part.behind = part.before := by
  cases part with
  | word unit closed kept =>
      obtain ⟨hsole, rfl⟩ := h
      obtain rfl : kept = unit.targets := by simpa [Kept, hsole] using hkept
      rfl
  | blank text => rfl
  | separator => rfl

end Part

/-- The text is at its end or goes on with a separator. -/
def Text.SegmentEnds (text : Text) : Prop :=
  text = [] ∨ ∃ more, text = Input.segmentSeparator :: more

/-- The parts of a text, from its first character to its last.  Its units and blanks are those that
the model reads; only a unit in front of a separator or at the end may be cut off. -/
inductive Reads (model : Model α) : Text → List Part → Prop
  | nil : Reads model [] []
  | word {unit : LexicalUnit} {closed : Bool} {kept : List Reading} {text : Text}
      {parts : List Part}
      (h : model.readUnit (.ofText (unit.spelling closed ++ text)) = .ok unit (.ofText text))
      (hopen : unit.isEnd = false) (hcut : closed = false → text.SegmentEnds)
      (hrest : Reads model text parts) :
      Reads model (unit.spelling closed ++ text) (.word unit closed kept :: parts)
  | blank {unit : LexicalUnit} {text : Text} {parts : List Part}
      (h : model.readUnit (.ofText (unit.blank ++ text)) = .ok unit (.ofText text))
      (hend : unit.isEnd = true) (hbehind : text.SegmentEnds) (hrest : Reads model text parts) :
      Reads model (unit.blank ++ text) (.blank unit.blank :: parts)
  | separator {text : Text} {parts : List Part} (hrest : Reads model text parts) :
      Reads model (Input.segmentSeparator :: text) (.separator :: parts)

/-- Nothing of the text is between the parts. -/
lemma Reads.text_eq {text : Text} {parts : List Part} (h : Reads model text parts) :
    text = parts.flatMap Part.before := by
  induction h with
  | nil => rfl
  | word _ _ _ _ ih => rw [List.flatMap_cons, ← ih, Part.before]
  | blank _ _ _ _ ih => rw [List.flatMap_cons, ← ih, Part.before]
  | separator _ ih => rw [List.flatMap_cons, ← ih, Part.before]; rfl

/-! ## Units and decisions -/

/-- Finding the features of a reading leaves its form. -/
lemma Model.form_annotate {side : Side} {reading : Reading} :
    (model.annotate side reading).form = reading.form := by
  rw [Reading.form, annotate, Matcher.annotate, Reading.pieces_foldl_addFeature]
  rfl

/-- Finding the features of a unit leaves its spelling. -/
lemma Model.spelling_annotateUnit {unit : LexicalUnit} (closed : Bool) :
    (model.annotateUnit unit).spelling closed = unit.spelling closed := by
  obtain ⟨blank, source, targets⟩ := unit
  cases source with
  | none => rfl
  | some source =>
      simp [annotateUnit, LexicalUnit.spelling, LexicalUnit.targetsSpelling, List.flatMap_map,
        form_annotate]

/-- What a model reads from a text is a unit with its spelling. -/
lemma Model.spelling_of_readUnit {text : Text} {unit : LexicalUnit}
    (h : model.readUnit (.ofText text) = .ok unit rest) :
    ∃ closed behind, rest = .ofText behind ∧ text = unit.spelling closed ++ behind ∧
      (unit.isEnd = true ∨ closed = false → behind.SegmentEnds) := by
  obtain ⟨bare, hbare, rfl⟩ := Input.map_eq_ok.1 h
  obtain ⟨unit, closed, behind, hread, htext, hends⟩ :=
    LexicalUnit.exists_read_ofText model.matcher.alphabet.tagNumber? text
  rw [hread] at hbare
  obtain ⟨rfl, rfl⟩ := EStateM.Result.ok.inj hbare
  refine ⟨closed, behind, rfl, ?_, fun h => hends (h.imp_left fun hend => ?_)⟩
  · rw [spelling_annotateUnit, htext]
  · simpa [annotateUnit, LexicalUnit.isEnd] using hend

/-- A unit is written with its closing character and with the targets that are kept. -/
lemma writeChoice_eq (decision : Decision) :
    Window.writeChoice decision = (Window.keepChoice decision).spelling true := by
  obtain ⟨⟨blank, source, targets⟩, choice⟩ := decision
  cases source with
  | none => rfl
  | some source =>
      simp [Window.writeChoice, Window.keepChoice, LexicalUnit.write, LexicalUnit.keepOnly,
        LexicalUnit.spelling, LexicalUnit.targetsSpelling, List.flatMap_map]

/-- A valid decision keeps one of several targets, and else all there is. -/
lemma Decision.Valid.kept {decision : Decision} (h : decision.Valid) (closed : Bool) :
    (Part.word decision.1 closed (Window.keepChoice decision).targets).Kept := by
  obtain ⟨⟨blank, source, targets⟩, choice⟩ := decision
  simp only [Decision.Valid] at h
  simp only [Part.Kept, Window.keepChoice, LexicalUnit.keepOnly]
  split
  · rename_i hsole
    obtain rfl : choice = 0 := by omega
    match targets, hsole with
    | [], _ => rfl
    | [target], _ => rfl
  · have hchoice : choice < targets.length := by omega
    exact ⟨targets[choice], List.getElem_mem hchoice, by simp [hchoice]⟩

/-! ## Segments and calls -/

/-- The part of a text that a decision makes of its unit. -/
def Decision.Makes (decision : Decision) (part : Part) : Prop :=
  if decision.1.isEnd then part = .blank decision.1.blank
  else ∃ closed, part = .word decision.1 closed (Window.keepChoice decision).targets

/-- A valid decision keeps the part that it is for: the blank, the form and one of the targets. -/
lemma Decision.Makes.kept {decision : Decision} {part : Part} (h : decision.Makes part)
    (hvalid : decision.Valid) : part.Kept := by
  rw [Makes] at h
  split at h
  · exact h ▸ trivial
  · obtain ⟨closed, rfl⟩ := h
    exact hvalid.kept closed

/-- What comes out for a part is what is written for its decision. -/
lemma Decision.Makes.behind_eq {decision : Decision} {part : Part} (h : decision.Makes part) :
    part.behind = Window.writeChoice decision := by
  rw [writeChoice_eq]
  rw [Makes] at h
  split at h
  · rename_i hend
    have hkept : (Window.keepChoice decision).isEnd = true := hend
    rw [h, LexicalUnit.spelling_of_isEnd hkept]
    rfl
  · obtain ⟨closed, rfl⟩ := h
    rfl

/-- The decisions for the units of a segment make parts of its text, which are parts of a longer
text in front of others. -/
lemma exists_makes_of_segment {text : Text} {segment : List Decision}
    (h : model.Segment (.ofText text) (segment.map Prod.fst) rest) :
    ∃ parts behind, rest = .ofText behind ∧ behind.SegmentEnds ∧
      (∀ more, Reads model behind more → Reads model text (parts ++ more)) ∧
      List.Forall₂ Decision.Makes segment parts := by
  generalize hinput : Input.ofText text = input at h
  generalize hunits : segment.map Prod.fst = units at h
  induction h generalizing text segment with
  | ending hread hend =>
      obtain ⟨decision, rfl, rfl⟩ := List.map_eq_singleton_iff.1 hunits
      subst hinput
      obtain ⟨closed, behind, rfl, rfl, hbehind⟩ := Model.spelling_of_readUnit hread
      rw [LexicalUnit.spelling_of_isEnd hend] at hread ⊢
      refine ⟨[.blank decision.1.blank], behind, rfl, hbehind (Or.inl hend), fun more hmore => ?_,
        .cons ?_ .nil⟩
      · exact .blank hread hend (hbehind (Or.inl hend)) hmore
      · simp [Decision.Makes, hend]
  | unit hread hopen _ ih =>
      obtain ⟨decision, decisions, rfl, rfl, rfl⟩ := List.map_eq_cons_iff.1 hunits
      subst hinput
      obtain ⟨closed, behind, rfl, rfl, hbehind⟩ := Model.spelling_of_readUnit hread
      obtain ⟨parts, behind', rfl, hends, hreads, hmakes⟩ := ih rfl rfl
      refine ⟨.word decision.1 closed (Window.keepChoice decision).targets :: parts, behind', rfl,
        hends, fun more hmore => ?_, .cons ?_ hmakes⟩
      · exact .word hread hopen (fun hcut => hbehind (Or.inr hcut)) (hreads more hmore)
      · simp [Decision.Makes, hopen]

/-- Valid decisions keep all of their parts. -/
lemma kept_of_makes {segment : List Decision} {parts : List Part}
    (h : List.Forall₂ Decision.Makes segment parts)
    (hvalid : ∀ decision ∈ segment, Decision.Valid decision) : ∀ part ∈ parts, part.Kept := by
  induction h with
  | nil => simp
  | cons hmakes _ ih =>
      obtain ⟨hdecision, hdecisions⟩ := List.forall_mem_cons.1 hvalid
      exact List.forall_mem_cons.2 ⟨hmakes.kept hdecision, ih hdecisions⟩

/-- What is written for decisions is what comes out for their parts. -/
lemma flatMap_writeChoice {segment : List Decision} {parts : List Part}
    (h : List.Forall₂ Decision.Makes segment parts) :
    segment.flatMap Window.writeChoice = parts.flatMap Part.behind := by
  induction h with
  | nil => rfl
  | cons hmakes _ ih => rw [List.flatMap_cons, List.flatMap_cons, ih, hmakes.behind_eq]

/-- The parts that valid decisions make keep a target of several, and are written as the text of the
decisions. -/
lemma exists_parts_of_segment {text : Text} {segment : List Decision}
    (h : model.Segment (.ofText text) (segment.map Prod.fst) rest)
    (hvalid : ∀ decision ∈ segment, Decision.Valid decision) :
    ∃ parts behind, rest = .ofText behind ∧ behind.SegmentEnds ∧
      (∀ more, Reads model behind more → Reads model text (parts ++ more)) ∧
      (∀ part ∈ parts, part.Kept) ∧
      segment.flatMap Window.writeChoice = parts.flatMap Part.behind := by
  obtain ⟨parts, behind, hrest, hends, hreads, hmakes⟩ := exists_makes_of_segment h
  exact ⟨parts, behind, hrest, hends, hreads, kept_of_makes hmakes hvalid,
    flatMap_writeChoice hmakes⟩

/-- A selection in a text writes its parts with the kept targets. -/
lemma exists_parts_of_selection [Zero α] {text written : Text} {segments : List (List Decision)}
    (h : Window.Selection model (.ofText text) segments written)
    (hvalid : ∀ segment ∈ segments, ∀ decision ∈ segment, Decision.Valid decision) :
    ∃ parts, Reads model text parts ∧ (∀ part ∈ parts, part.Kept) ∧
      written = parts.flatMap Part.behind := by
  generalize hinput : Input.ofText text = input at h
  induction h generalizing text with
  | done =>
      obtain rfl := List.map_eq_nil_iff.1 hinput
      exact ⟨[], .nil, by simp, rfl⟩
  | last _ hsegment =>
      subst hinput
      obtain ⟨parts, behind, hrest, -, hreads, hkept, hwritten⟩ :=
        exists_parts_of_segment hsegment (hvalid _ (by simp))
      obtain rfl := List.map_eq_nil_iff.1 hrest.symm
      exact ⟨parts, by simpa using hreads [] .nil, hkept, hwritten⟩
  | segment hsegment _ ih =>
      subst hinput
      obtain ⟨hfirst, hothers⟩ := List.forall_mem_cons.1 hvalid
      obtain ⟨parts, behind, hrest, hends, hreads, hkept, hwritten⟩ :=
        exists_parts_of_segment hsegment hfirst
      obtain ⟨c, behind, rfl, hc, rfl⟩ := List.map_eq_cons_iff.1 hrest.symm
      obtain rfl : c = Input.segmentSeparator := by simpa [Text.SegmentEnds] using hends
      obtain ⟨more, hmore, hkept', hwritten'⟩ := ih hothers rfl
      refine ⟨parts ++ .separator :: more, hreads _ (.separator hmore), ?_, ?_⟩
      · exact List.forall_mem_append.2 ⟨hkept, List.forall_mem_cons.2 ⟨trivial, hkept'⟩⟩
      · obtain rfl := Item.char.inj hc
        rw [List.flatMap_append, List.flatMap_cons, hwritten, hwritten']
        rfl

/-- **Selecting copies a text.**  After any calls that came to their end, a call on a text comes to
its end too.  The text is a row of parts, units with their blanks first, and what is written is the
same row with just one of two or more targets kept in each unit, and with every unit closed.  So a
text that leaves no choice and cuts no unit off is written as it was. -/
theorem process_copies [Zero α] [Add α] [Sub α] [Ord α] {calls : List (Bytes × Text)}
    {window : Window α} (hserved : Window.Served model calls window) (flushSegments : Bool)
    (text : Text) :
    let outcome := window.process model flushSegments text.utf8
    outcome.fault = none ∧ outcome.rest = [] ∧
      ∃ parts, Reads model text parts ∧ (∀ part ∈ parts, part.Kept) ∧
        text = parts.flatMap Part.before ∧
        Event.written outcome.events = parts.flatMap Part.behind ∧
        ((∀ part ∈ parts, part.Plain) → (Event.written outcome.events).utf8 = text.utf8) := by
  intro outcome
  have hinput : Input.ofBytes text.utf8 = Input.ofText text := Utf8.items_utf8 text
  have hfault : outcome.fault = none := by
    rw [Option.eq_none_iff_forall_ne_some]
    intro fault hfault
    exact Input.not_broken_ofText text (hinput ▸ Window.broken_of_processInput hfault)
  obtain ⟨logs, hrests, -⟩ := Window.selection_of_served hserved
  obtain ⟨segments, hrests', hselection, hrest⟩ :=
    Window.selection_processInput hrests hfault
  replace hselection :
      Window.Selection model (.ofText text) segments (Event.written outcome.events) := by
    rw [← hinput]
    exact hselection
  have hvalid : ∀ segment ∈ segments, ∀ decision ∈ segment, Decision.Valid decision := by
    intro segment hsegment decision hdecision
    refine Window.valid_of_run (hrests'.run []) decision (List.mem_append_left _ ?_)
    exact List.mem_reverse.2 (List.mem_flatten_of_mem hsegment hdecision)
  obtain ⟨parts, hreads, hkept, hwritten⟩ := exists_parts_of_selection hselection hvalid
  refine ⟨hfault, hrest, parts, hreads, hkept, hreads.text_eq, hwritten, fun hplain => ?_⟩
  have hsame : parts.flatMap Part.behind = parts.flatMap Part.before :=
    List.flatMap_congr fun part hpart => (hplain part hpart).behind_eq (hkept part hpart)
  rw [hwritten, hsame, ← hreads.text_eq]

/-- Two calls one after the other.  The first one keeps the first target and closes the last unit;
the second one has nothing to choose. -/
theorem process_copies_twice :
    let model : Model Int := { lookbehind := 1 }
    let first := Window.process model false .initial (Text.utf8 "^a/b/c$ ^d/e".toList)
    let second := first.window.process model true (Text.utf8 "[<b>] ^a/b$\x00x".toList)
    Event.written first.events = "^a/b$ ^d/e$".toList ∧ second.fault = none ∧
      Event.written second.events = "[<b>] ^a/b$\x00x".toList ∧
      ∃ parts, Reads model "[<b>] ^a/b$\x00x".toList parts ∧
        Event.written second.events = parts.flatMap Part.behind := by
  intro model first second
  have hfault : first.fault = none := by decide +kernel
  obtain ⟨hfault', -, parts, hreads, -, -, hwritten, -⟩ :=
    process_copies (.call .initial false _ hfault) true "[<b>] ^a/b$\x00x".toList
  exact ⟨by decide +kernel, hfault', by decide +kernel, parts, hreads, hwritten⟩

end LexicalSelection
