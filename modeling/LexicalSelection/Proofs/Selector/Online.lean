import LexicalSelection.Proofs.LexicalUnit.Rereading
import LexicalSelection.Proofs.Selector.Calls
import LexicalSelection.Proofs.Selector.Splitting

/-!
# Selecting while the input is read

A unit is decided when no more units have been read behind it than the model looks at.  So when a
unit leaves no choice, everything up to it is written as soon as those units are there, and nothing
that comes behind them can change it.

## How it goes

A unit that has been closed is read in the same way whatever is behind it (`readsBack_of_closed`),
and so are the units that are read ahead, as long as there are enough of them
(`refill_of_readsBack`).  Each step of draining then takes the same unit with the same ones behind
it (`exists_drain_step`), until the one that leaves no choice has been taken (`drain_online`, by
induction on the units before it).

* `Model.Begins` — a text begins with some units, each of them closed.
* `Model.ReadsBack` — a unit is read from its spelling, whatever is behind it.
* **`process_online`** — what is written up to a unit that leaves no choice does not depend on what
  is behind the units that the model looks at.
-/

namespace LexicalSelection

/-- The text of some units, each of them closed. -/
def LexicalUnit.spellings (units : List LexicalUnit) : Text :=
  units.flatMap (LexicalUnit.spelling true)

open LexicalUnit (spellings)

namespace Model

variable {α : Type} {model : Model α} {input rest : Input} {unit : LexicalUnit}
  {units : List LexicalUnit} {text behind : Text}

/-! ## Units that have been closed -/

/-- The text begins with these units, each of them closed, and this is what is left behind the last
one.  No separator is on the way, since it would be the end of a segment. -/
inductive Begins (model : Model α) : Text → List LexicalUnit → Text → Prop
  | done (text : Text) : Begins model text [] text
  | unit {text behind rest : Text} {unit : LexicalUnit} {units : List LexicalUnit}
      (h : model.readUnit (.ofText text) = .ok unit (.ofText behind)) (hopen : unit.isEnd = false)
      (hclosed : text = unit.spelling true ++ behind) (hrest : Begins model behind units rest) :
      Begins model text (unit :: units) rest

/-- The unit is read from its spelling, whatever is behind it, and is not the end of a segment. -/
structure ReadsBack (model : Model α) (unit : LexicalUnit) : Prop where
  readUnit : ∀ behind, model.readUnit (.ofText (unit.spelling true) ++ behind) = .ok unit behind
  isEnd : unit.isEnd = false

/-- **A unit that has been closed is read again, whatever is behind it.** -/
lemma readsBack_of_closed (h : model.readUnit input = .ok unit rest) (hopen : unit.isEnd = false)
    (hclosed : input = .ofText (unit.spelling true) ++ rest) : model.ReadsBack unit := by
  obtain ⟨bare, hbare, rfl⟩ := Input.map_eq_ok.1 h
  have hbareOpen : bare.isEnd = false := by simpa [annotateUnit, LexicalUnit.isEnd] using hopen
  rcases LexicalUnit.spelling_of_open hbare hbareOpen with ⟨-, hinput, -⟩ | ⟨hcut, -⟩
  · -- A unit that is cut off has a shorter spelling.
    have hsame := List.append_cancel_right (hclosed.symm.trans hinput)
    rw [spelling_annotateUnit, LexicalUnit.spelling_closed hbareOpen] at hsame
    simpa using Input.ofText_injective hsame
  · have hunit := LexicalUnit.delimited_of_read hbare hbareOpen hcut
    refine ⟨fun behind => ?_, hopen⟩
    rw [spelling_annotateUnit]
    exact Input.map_eq_ok.2 ⟨bare, hunit.read_spelling hbareOpen behind, rfl⟩

lemma readsBack_of_begins (h : model.Begins text units behind) :
    text = spellings units ++ behind ∧ ∀ unit ∈ units, model.ReadsBack unit := by
  induction h with
  | done text => exact ⟨rfl, by simp⟩
  | unit h hopen hclosed _ ih =>
      obtain ⟨hbehind, hunits⟩ := ih
      have hinput := congrArg Input.ofText hclosed
      rw [Input.ofText_append] at hinput
      refine ⟨?_, List.forall_mem_cons.2 ⟨readsBack_of_closed h hopen hinput, hunits⟩⟩
      rw [hclosed, hbehind, spellings, spellings, List.flatMap_cons, List.append_assoc]

/-- A unit that is not the end of a segment takes a character at least. -/
lemma ReadsBack.spelling_ne_nil (h : model.ReadsBack unit) : unit.spelling true ≠ [] := by
  intro hnil
  have hshorter := readUnit_shorter (h.readUnit []) (by simp [h.isEnd])
  simp [hnil, Input.ofText] at hshorter

end Model

namespace Window

variable {α : Type} {model : Model α} {window : Window α} {unit sole : LexicalUnit}
  {units run ahead : List LexicalUnit}

/-! ## Reading ahead among such units -/

lemma readAhead_of_readsBack (h : ∀ unit ∈ units, model.ReadsBack unit) {count : Nat}
    (hcount : count ≤ units.length) (behind : Input) :
    readAhead model count (.ofText (spellings units) ++ behind)
      = (units.take count, .ok false (.ofText (spellings (units.drop count)) ++ behind)) := by
  induction count generalizing units with
  | zero => rfl
  | succ count ih =>
      cases units with
      | nil => simp at hcount
      | cons unit units =>
          obtain ⟨hunit, hunits⟩ := List.forall_mem_cons.1 h
          have hrest := ih hunits (Nat.le_of_succ_le_succ hcount)
          have hread := hunit.readUnit (.ofText (spellings units) ++ behind)
          rw [← List.append_assoc, ← Input.ofText_append] at hread
          simp only [readAhead, spellings, List.flatMap_cons] at hread hrest ⊢
          simp [hread, hunit.isEnd, hrest]

variable [Zero α]

/-- **When enough units are there, they are what is read ahead**, whatever is behind them. -/
lemma refill_of_readsBack (hunderway : window.Underway) (hended : window.ended = false)
    (h : ∀ unit ∈ units, model.ReadsBack unit)
    (hready : model.lookahead + 1 ≤ (window.ahead ++ units).length) :
    ∃ read unread, units = read ++ unread ∧ window.ahead ++ read ≠ [] ∧
      ∀ behind, window.refill model (.ofText (spellings units) ++ behind)
        = ({ window with ahead := window.ahead ++ read },
          .ok () (.ofText (spellings unread) ++ behind)) := by
  rw [List.length_append] at hready
  have hcount : model.lookahead + 1 - window.ahead.length ≤ units.length := by omega
  refine ⟨_, _, (List.take_append_drop (model.lookahead + 1 - window.ahead.length) units).symm, ?_,
    fun behind => ?_⟩
  · rw [← List.length_pos_iff, List.length_append, List.length_take]
    omega
  · simp [refill, hunderway.complete_eq, hended, readAhead_of_readsBack h hcount]

/-! ## Draining among such units -/

variable [Add α] [Sub α] [Ord α]

lemma step_ahead (hahead : window.ahead = unit :: ahead) :
    (window.step model).1.ahead = ahead := by
  simp only [step, hahead]
  split <;> rfl

/-- A step decides the units up to the next one, or they wait. -/
lemma pending_step (hlinked : window.IsLinked) (hahead : window.ahead = unit :: ahead) :
    ((window.decided model).map Prod.fst).reverse ++ (window.step model).1.pending.reverse
      = window.pending.reverse ++ [unit] := by
  have hundecided : ((window.decided model).map Prod.fst).reverse
      ++ (window.step model).1.undecided = window.undecided := undecided_step hlinked
  rw [undecided, step_ahead hahead, undecided, hahead, ← List.append_assoc, List.append_cons]
    at hundecided
  exact List.append_cancel_right hundecided

lemma pending_step_of_sole (model : Model α) (hahead : window.ahead = unit :: ahead)
    (hsole : unit.ambiguous = false) : (window.step model).1.pending = [] := by
  simp [step, hahead, hsole, commit]

/-- The first step of draining is the same whatever is behind enough units, and so is the window
that it leaves. -/
lemma exists_drain_step (hunderway : window.Underway) (hended : window.ended = false)
    (h : ∀ unit ∈ units, model.ReadsBack unit) (hunits : window.ahead ++ units = unit :: ahead)
    (hahead : model.lookahead ≤ ahead.length) :
    ∃ (window' : Window α) (decisions : List Decision) (unread : List LexicalUnit),
      window'.Underway ∧ window'.ended = false ∧ (∀ unit ∈ unread, model.ReadsBack unit) ∧
      window'.ahead ++ unread = ahead ∧
      decisions.map Prod.fst ++ window'.pending.reverse = window.pending.reverse ++ [unit] ∧
      (unit.ambiguous = false → window'.pending = []) ∧
      (∀ decision ∈ decisions, Decision.Valid decision) ∧
      ∀ behind, Event.written (window.drain model (.ofText (spellings units) ++ behind)).events
        = decisions.flatMap writeChoice
          ++ Event.written (window'.drain model (.ofText (spellings unread) ++ behind)).events := by
  have hready : model.lookahead + 1 ≤ (window.ahead ++ units).length := by
    rw [hunits]
    simpa using hahead
  obtain ⟨read, unread, rfl, hne, hrefill⟩ := refill_of_readsBack hunderway hended h hready
  let refilled : Window α := { window with ahead := window.ahead ++ read }
  have hrefilled : refilled.Underway := (refilled_refill hunderway (hrefill [])).underway
  obtain ⟨first, others, hfirst⟩ := List.exists_cons_of_ne_nil hne
  rw [← List.append_assoc, hfirst, List.cons_append] at hunits
  obtain ⟨rfl, rfl⟩ := List.cons.inj hunits
  refine ⟨(refilled.step model).1, (refilled.decided model).reverse, unread,
    underway_step hrefilled, step_ended.trans hended, (List.forall_mem_append.1 h).2, ?_, ?_,
    pending_step_of_sole model hfirst, ?_, fun behind => ?_⟩
  · rw [step_ahead hfirst]
  · rw [List.map_reverse]
    exact pending_step hrefilled.linked hfirst
  · simpa using valid_decided hrefilled.linked
  · rw [drain_of_step (hrefill behind) hne, ← step_text]
    rfl

/-- **Draining decides in the same way up to a unit that leaves no choice**, when as many units are
known behind it as the model looks at. -/
lemma drain_online (hunderway : window.Underway) (hended : window.ended = false)
    (h : ∀ unit ∈ units, model.ReadsBack unit)
    (hunits : window.ahead ++ units = run ++ sole :: ahead) (hsole : sole.ambiguous = false)
    (hahead : model.lookahead ≤ ahead.length) :
    ∃ decisions : List Decision, decisions.map Prod.fst = window.pending.reverse ++ run ++ [sole] ∧
      (∀ decision ∈ decisions, Decision.Valid decision) ∧
      ∀ behind, ∃ later,
        Event.written (window.drain model (.ofText (spellings units) ++ behind)).events
          = decisions.flatMap writeChoice ++ later := by
  induction run generalizing window units with
  | nil =>
      -- The next unit leaves no choice: it is decided with those that wait.
      obtain ⟨window', decisions, unread, -, -, -, -, hpending, hnone, hvalid, hwritten⟩ :=
        exists_drain_step hunderway hended h hunits hahead
      rw [hnone hsole, List.reverse_nil, List.append_nil] at hpending
      exact ⟨decisions, by rw [hpending, List.append_nil], hvalid,
        fun behind => ⟨_, hwritten behind⟩⟩
  | cons unit run ih =>
      have hbehind : model.lookahead ≤ (run ++ sole :: ahead).length := by
        rw [List.length_append, List.length_cons]
        omega
      obtain ⟨window', decisions, unread, hunderway', hended', hunread, hunits', hpending, -,
        hvalid,
        hwritten⟩ := exists_drain_step hunderway hended h hunits hbehind
      obtain ⟨decisions', hunits', hvalid', hwritten'⟩ := ih hunderway' hended' hunread hunits'
      refine ⟨decisions ++ decisions', ?_, List.forall_mem_append.2 ⟨hvalid, hvalid'⟩,
        fun behind => ?_⟩
      · rw [List.map_append, hunits', ← List.append_assoc, ← List.append_assoc, hpending]
        simp
      · obtain ⟨later, hlater⟩ := hwritten' behind
        exact ⟨later, by rw [hwritten, hlater, List.flatMap_append, List.append_assoc]⟩

/-! ## Calls -/

/-- A call begins with draining its first segment. -/
lemma exists_events_processInput (model : Model α) (flushSegments : Bool) (window : Window α)
    (c : Char) (items : Input) :
    ∃ later, (window.processInput model flushSegments (.char c :: items)).events
      = (drain model { window with ended := false } (.char c :: items)).events ++ later := by
  rw [processInput_of_drain (by simp) rfl]
  split
  · exact ⟨[], (List.append_nil _).symm⟩
  · exact ⟨_, rfl⟩
  · exact ⟨[], (List.append_nil _).symm⟩
  · exact ⟨_, List.append_assoc _ _ _⟩

/-- **A unit that leaves no choice is written before it matters what is behind the units that the
model looks at.**  Take a window after some calls, whatever became of those, and a text that begins
with some units, each of them closed.  Let one of these leave no choice, and as many stand behind it
as the model looks at.  Then there are decisions for the units that wait in the window and for those
up to this one, and every call on an input that agrees with the text up to the last of its units
begins by writing them, whatever bytes come behind. -/
theorem process_online {calls : List (Bytes × Text)} (hcalled : Called model calls window)
    {front behind : Text}
    (hbegins : model.Begins (front ++ behind) (run ++ sole :: ahead) behind)
    (hsole : sole.ambiguous = false) (hahead : model.lookahead ≤ ahead.length) :
    ∃ decisions : List Decision, decisions.map Prod.fst = window.undecided ++ run ++ [sole] ∧
      (∀ decision ∈ decisions, Decision.Valid decision) ∧
      ∀ flushSegments bytes, ∃ later,
        Event.written (window.process model flushSegments (front.utf8 ++ bytes)).events
          = decisions.flatMap writeChoice ++ later := by
  obtain ⟨log, hstands, -⟩ := called_stands hcalled
  obtain ⟨htext, hunits⟩ := Model.readsBack_of_begins hbegins
  obtain rfl : front = spellings (run ++ sole :: ahead) := List.append_cancel_right htext
  have hdivided : window.ahead ++ (run ++ sole :: ahead) = (window.ahead ++ run) ++ sole :: ahead :=
    (List.append_assoc _ _ _).symm
  obtain ⟨decisions, hdecided, hvalid, hwritten⟩ :=
    drain_online (underway_of_run (hstands [])) rfl hunits hdivided hsole hahead
  refine ⟨decisions, by simpa [undecided] using hdecided, hvalid, fun flushSegments bytes => ?_⟩
  have hne : spellings (run ++ sole :: ahead) ≠ [] := fun hnil =>
    (hunits sole (by simp)).spelling_ne_nil (List.flatMap_eq_nil_iff.1 hnil sole (by simp))
  obtain ⟨c, others, hfront⟩ := List.exists_cons_of_ne_nil hne
  obtain ⟨items, hitems⟩ : ∃ items, Input.ofBytes
      (Text.utf8 (spellings (run ++ sole :: ahead)) ++ bytes)
        = .ofText (spellings (run ++ sole :: ahead)) ++ items :=
    ⟨_, Utf8.itemsFrom_utf8_append 0 _ bytes⟩
  obtain ⟨later, hlater⟩ := hwritten items
  rw [hfront, Input.ofText_cons, List.cons_append] at hitems hlater
  obtain ⟨events, hevents⟩ := exists_events_processInput model flushSegments window c
    (.ofText others ++ items)
  refine ⟨later ++ Event.written events, ?_⟩
  rw [process, hfront, hitems, hevents, written_append, hlater, List.append_assoc]

/-- The unit behind the first one decides about it, and leaves no choice; one more is looked at
behind that.  Whatever comes next, the first two are written in the same way, as in front of another
unit and in front of a broken sequence. -/
theorem process_online_two_units :
    let model : Model Int := Model.setWeight (.of ⟨0, 1⟩ ⟨1, 2⟩) 1 <| Model.rebuildMatcher
      { lookahead := 1, features := [{ name := [] }, { name := ['Y'], patterns := ["tl/y".toList] },
        { name := ['B'], patterns := ["sl/b".toList] }] }
    let front : Text := "^a/x/y$ ^b/b$ ^c/c/d$".toList
    let first : LexicalUnit :=
      ⟨[], some ⟨[.plain 'a'], [0]⟩, [⟨[.plain 'x'], [0]⟩, ⟨[.plain 'y'], [0, 1]⟩]⟩
    let second : LexicalUnit := ⟨[' '], some ⟨[.plain 'b'], [0, 2]⟩, [⟨[.plain 'b'], [0]⟩]⟩
    Event.written (Window.initial.process model false (front.utf8 ++ [0xFF])).events
        = "^a/y$ ^b/b$".toList ∧
      Event.written
          (Window.initial.process model false (front.utf8 ++ Text.utf8 "^e/f$".toList)).events
        = "^a/y$ ^b/b$ ^c/c$^e/f$".toList ∧
      ∃ decisions : List Decision, decisions.map Prod.fst = [first, second] ∧
        ∀ flushSegments bytes, ∃ later,
          Event.written (Window.initial.process model flushSegments (front.utf8 ++ bytes)).events
            = decisions.flatMap writeChoice ++ later := by
  intro model front first second
  let third : LexicalUnit :=
    ⟨[' '], some ⟨[.plain 'c'], [0]⟩, [⟨[.plain 'c'], [0]⟩, ⟨[.plain 'd'], [0]⟩]⟩
  have hfirst : model.readUnit (.ofText (front ++ []))
      = .ok first (.ofText " ^b/b$ ^c/c/d$".toList) := by decide +kernel
  have hsecond : model.readUnit (.ofText " ^b/b$ ^c/c/d$".toList)
      = .ok second (.ofText " ^c/c/d$".toList) := by decide +kernel
  have hthird : model.readUnit (.ofText " ^c/c/d$".toList) = .ok third (.ofText []) := by
    decide +kernel
  have hbegins : model.Begins (front ++ []) ([first] ++ second :: [third]) [] :=
    .unit hfirst rfl (by decide) (.unit hsecond rfl (by decide)
      (.unit hthird rfl (by decide) (.done [])))
  obtain ⟨decisions, hunits, -, hwritten⟩ := process_online .initial hbegins rfl le_rfl
  exact ⟨by decide +kernel, by decide +kernel, decisions, hunits, hwritten⟩

end Window

end LexicalSelection
