import LexicalSelection.Proofs.Selector.Beam

/-!
# The one best choice for a stream

When no hypothesis is dropped, and what was chosen before a commit does not count behind it, the
decisions for a whole stream together gain as much as any others.  So if just one choice of targets
for the stream is the best one, it is the one that is written.  Otherwise it need not be: a commit
takes what is best up to there.

* `assignments` — all choices of targets for some units.
* `UniqueBest` — one choice gains more than any other; whether it does can be computed.
* `units_of_selection` — what a call selects for are all units that can be read from its input.
* **`UniqueBest.exists_front`** — the decisions of a run are the first ones of the best choice.
* **`process_of_uniqueBest`** — a fresh selector writes the best choice.
* **`process_not_best`** — with two units before another one looked at, it can write another choice.
-/

namespace LexicalSelection.Window

variable {α : Type} {model : Model α} {window : Window α} {input : Input}
  {units : List LexicalUnit} {decisions history best : List Decision}

/-! ## All choices -/

/-- All choices of a target for each of some units, the last unit first. -/
def assignments : List LexicalUnit → List (List Decision)
  | [] => [[]]
  | unit :: units =>
    (List.range (max 1 unit.targets.length)).flatMap fun reading =>
      (assignments units).map ((unit, reading) :: ·)

lemma mem_assignments : decisions ∈ assignments units ↔ Assigns units decisions := by
  induction units generalizing decisions with
  | nil => simp +contextual [assignments, Assigns, iff_def]
  | cons unit units ih =>
      simp only [assignments, List.mem_flatMap, List.mem_range, List.mem_map, ih]
      constructor
      · rintro ⟨reading, hreading, others, ⟨rfl, hvalid⟩, rfl⟩
        exact ⟨rfl, List.forall_mem_cons.2 ⟨hreading, hvalid⟩⟩
      · rintro ⟨hunits, hvalid⟩
        obtain ⟨⟨unit, reading⟩, others, rfl, rfl, rfl⟩ := List.map_eq_cons_iff.1 hunits
        obtain ⟨hreading, hvalid⟩ := List.forall_mem_cons.1 hvalid
        exact ⟨reading, hreading, others, ⟨rfl, hvalid⟩, rfl⟩

section Gain

variable [AddCommGroup α] [LinearOrder α]

/-- The choice is one for these units, the last one first, and it gains more than any other. -/
structure UniqueBest (model : Model α) (units : List LexicalUnit) (best : List Decision) :
    Prop where
  assigns : Assigns units.reverse best
  gain_lt : ∀ others, Assigns units.reverse others → others ≠ best →
    model.gain others [] [] < model.gain best [] []

lemma uniqueBest_iff : UniqueBest model units best ↔ best ∈ assignments units.reverse ∧
    ∀ others ∈ assignments units.reverse, others ≠ best →
      model.gain others [] [] < model.gain best [] [] := by
  simp only [mem_assignments]
  exact ⟨fun h => ⟨h.assigns, h.gain_lt⟩, fun h => ⟨h.1, h.2⟩⟩

instance : Decidable (UniqueBest model units best) := decidable_of_iff _ uniqueBest_iff.symm

/-! ## The best choice and a run -/

variable [IsOrderedAddMonoid α]

/-- **The decisions of a run are the first ones of the best choice** for all of its units.
Otherwise they could take the place of those: they gain as much as any others for their units, and
count for nothing behind them. -/
lemma UniqueBest.exists_front (hrun : Run model history window input) (hbeam : model.beam = 0)
    (hsealed : model.Sealed (stream history window []))
    (hbest : UniqueBest model (stream history window []) best) :
    ∃ front, Assigns window.undecided.reverse front ∧ best = front ++ history := by
  have hassigns := hbest.assigns
  have hreverse : (stream history window []).reverse
      = window.undecided.reverse ++ history.map Prod.fst := by
    simp [stream]
  rw [hreverse] at hassigns
  obtain ⟨front, back, rfl, hfront, hback⟩ := assigns_append hassigns
  have hhistory : Assigns (history.map Prod.fst) history := ⟨rfl, valid_of_run hrun⟩
  have hswapped : Assigns (stream history window []).reverse (front ++ history) := by
    rw [hreverse]
    exact ⟨by rw [List.map_append, hfront.1], List.forall_mem_append.2 ⟨hfront.2, hhistory.2⟩⟩
  have hbehind : model.gain front back [] = model.gain front history [] :=
    gain_eq_of_sealed hrun hsealed hfront hback
  have hleading : model.gain back [] window.undecided ≤ model.gain history [] window.undecided := by
    have hall := best_of_run hrun [] (Or.inr (Or.inl hbeam)) hsealed
    rw [List.append_nil] at hall
    exact hall back hback trivial
  refine ⟨front, hfront, ?_⟩
  by_contra hne
  have hless := hbest.gain_lt _ hswapped fun h => hne h.symm
  refine absurd hless (not_lt_of_ge ?_)
  have hunits : (front.map Prod.fst).reverse = window.undecided := by
    rw [hfront.1, List.reverse_reverse]
  calc model.gain (front ++ back) [] []
      = model.gain front back [] + model.gain back [] window.undecided := by
        rw [Model.gain_append, List.append_nil, List.append_nil, hunits]
    _ ≤ model.gain front history [] + model.gain history [] window.undecided := by
        rw [hbehind]
        exact add_le_add_right hleading _
    _ = model.gain (front ++ history) [] [] := by
        rw [Model.gain_append, List.append_nil, List.append_nil, hunits]

end Gain

/-! ## The best choice and a call -/

/-- **What a call selects for are all units** that can be read from its input. -/
lemma units_of_selection [Zero α] {segments : List (List Decision)} {text : Text}
    (h : Selection model input segments text) :
    segments.flatten.map Prod.fst = model.readableUnits input := by
  induction h with
  | done => simp [Model.readableUnits]
  | last hne hsegment =>
      rw [Model.readableUnits_of_last hne (Model.segmentUnits_of_segment hsegment) (by simp),
        List.flatten_singleton]
  | segment hsegment _ ih =>
      obtain ⟨front, hinput, -⟩ := hsegment.exists_text
      rw [Model.readableUnits_of_separator (by simp [hinput])
        (Model.segmentUnits_of_segment hsegment), List.flatten_cons, List.map_append, ih]

section Process

variable [AddCommGroup α] [LinearOrder α] [IsOrderedAddMonoid α]

/-- **The one best choice for a stream is written.**  Let a model drop no hypothesis, and let one
choice of targets for all units that can be read from an input gain more than any other.  If no more
than one unit before another one is looked at, or if what the units behind a commit gain does not
depend on the choices before it, then a fresh selector writes the targets of that choice: all of
them when the input is not broken, and else the first ones, up to some unit. -/
theorem process_of_uniqueBest (model : Model α) (hbeam : model.beam = 0) (flushSegments : Bool)
    (bytes : Bytes)
    (hsealed : model.lookbehind ≤ 1 ∨ model.Sealed (model.readableUnits (.ofBytes bytes)))
    (best : List Decision) (hbest : UniqueBest model (model.readableUnits (.ofBytes bytes)) best) :
    let outcome := Window.initial.process model flushSegments bytes
    (∃ log : List (Option Decision), Event.written outcome.events = log.flatMap writeEntry ∧
      log.reduceOption <+: best.reverse) ∧
    (¬(Input.ofBytes bytes).Broken → outcome.fault = none ∧
      ∃ segments, Selection model (.ofBytes bytes) segments (Event.written outcome.events) ∧
        segments.flatten = best.reverse) := by
  intro outcome
  have hsealed : model.Sealed (model.readableUnits (.ofBytes bytes)) :=
    hsealed.elim Model.sealed_of_lookbehind id
  constructor
  · obtain ⟨log, hstands, hwritten, haccount⟩ :=
      processInput_accounts rests_initial.run
        (show Window.initial.processInput model flushSegments (.ofBytes bytes) = outcome from rfl)
    have hstream : stream (log.reduceOption.reverse ++ []) outcome.window []
        = model.readableUnits (.ofBytes bytes) := by
      simpa [stream, undecided, initial] using haccount
    obtain ⟨front, -, rfl⟩ :=
      UniqueBest.exists_front (hstands []) hbeam (hstream ▸ hsealed) (hstream ▸ hbest)
    exact ⟨log, hwritten, by simp⟩
  · intro hwhole
    have hfault : outcome.fault = none := by
      rw [Option.eq_none_iff_forall_ne_some]
      intro fault hfault
      exact hwhole (broken_of_processInput hfault)
    obtain ⟨segments, hrests, hselection, -⟩ := selection_processInput rests_initial hfault
    have hundecided : outcome.window.undecided = [] := hrests.undecided
    have hstream : stream (segments.flatten.reverse ++ []) outcome.window []
        = model.readableUnits (.ofBytes bytes) := by
      simp [stream, hundecided, ← units_of_selection hselection]
    obtain ⟨front, hfront, rfl⟩ :=
      UniqueBest.exists_front (hrests.run []) hbeam (hstream ▸ hsealed) (hstream ▸ hbest)
    have hnone : outcome.window.undecided.reverse = [] := by rw [hundecided, List.reverse_nil]
    obtain rfl := List.map_eq_nil_iff.1 (hfront.1.trans hnone)
    exact ⟨hfault, segments, hselection, by simp⟩

/-- Two of the first targets in a row are liked, and a second target is liked more behind a certain
source reading, and a little by itself.  The first unit has that reading, so of the four choices the
one of the second targets is best, and it is written. -/
theorem process_of_uniqueBest_two_units :
    let model : Model Int := Model.setWeight (.of ⟨0, 1⟩ ⟨-1, 3⟩) 15 <|
      Model.setWeight (.of ⟨0, 2⟩ ⟨-1, 2⟩) 10 <| Model.setWeight (.unary ⟨0, 1⟩) 1 <|
        Model.rebuildMatcher
          { lookbehind := 1, features := [{ name := [] },
              { name := ['F'], patterns := ["tl/f".toList] },
              { name := ['G'], patterns := ["tl/g".toList] },
              { name := ['A'], patterns := ["sl/a".toList] }] }
    let bytes := Text.utf8 "^a/g/f$ ^b/g/f$ ^c/c$".toList
    let outcome := Window.initial.process model false bytes
    ∃ best, UniqueBest model (model.readableUnits (.ofBytes bytes)) best ∧
      best.reverse.map Prod.snd = [1, 1, 0, 0] ∧
      Event.written outcome.events = "^a/f$ ^b/f$ ^c/c$".toList ∧
      ∃ segments, Selection model (.ofBytes bytes) segments (Event.written outcome.events) ∧
        segments.flatten = best.reverse := by
  intro model bytes outcome
  let best := ((model.readableUnits (.ofBytes bytes)).zip [1, 1, 0, 0]).reverse
  have hbest : UniqueBest model (model.readableUnits (.ofBytes bytes)) best := by decide +kernel
  have hwhole : ¬(Input.ofBytes bytes).Broken := by
    rw [show Input.ofBytes bytes = .ofText "^a/g/f$ ^b/g/f$ ^c/c$".toList from Utf8.items_utf8 _]
    exact Input.not_broken_ofText _
  obtain ⟨-, hwritten⟩ := process_of_uniqueBest model rfl false bytes (Or.inl le_rfl) best hbest
  exact ⟨best, hbest, by decide +kernel, by decide +kernel, (hwritten hwhole).2⟩

/-- **The best choice need not be written**, when two units before another one are looked at.  The
second unit leaves no choice, so that the first one is decided by then; and what tells its targets
apart most of all stands behind that. -/
theorem process_not_best :
    let model : Model Int := Model.setWeight (.of ⟨0, 3⟩ ⟨-2, 2⟩) 10 <|
      Model.setWeight (.unary ⟨0, 1⟩) 1 <| Model.rebuildMatcher
        { lookbehind := 2, features := [{ name := [] },
            { name := ['X'], patterns := ["tl/x".toList] },
            { name := ['Y'], patterns := ["tl/y".toList] },
            { name := ['C'], patterns := ["tl/c".toList] }] }
    let bytes := Text.utf8 "^a/x/y$ ^b/b$ ^c/c$".toList
    ∃ best, UniqueBest model (model.readableUnits (.ofBytes bytes)) best ∧
      best.reverse.flatMap writeChoice = "^a/y$ ^b/b$ ^c/c$".toList ∧
      Event.written (Window.initial.process model false bytes).events
        = "^a/x$ ^b/b$ ^c/c$".toList := by
  intro model bytes
  refine ⟨((model.readableUnits (.ofBytes bytes)).zip [1, 0, 0, 0]).reverse, ?_, ?_, ?_⟩
  · decide +kernel
  · decide +kernel
  · decide +kernel

end Process

end LexicalSelection.Window
