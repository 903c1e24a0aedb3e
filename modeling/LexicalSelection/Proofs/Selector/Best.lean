import LexicalSelection.Proofs.Selector.Foremost

/-!
# The best decisions for a stream

A commit takes the targets that are best up to there.  When they count for nothing behind it, all
commits together take the targets that are best for the whole stream, or the best ones among those
that the beam lets a search come to.

* `Model.Sealed` — what the units behind a commit gain does not depend on what was chosen before it.
* `sealed_of_lookbehind` — so it is when no more than one unit before another one is looked at.
* `Best` — decisions gain as much as any others of some kind for the same units.
* `LeadsAmong` — what a commit writes gains as much as any choice of some kind.
* `holds_of_commits` — what each commit keeps holds in every state of a run.
* **`best_of_commits`** — when each commit does, all decisions together do.
* **`best_of_run`** — so they gain as much as any others at all, when the beam covers the runs of
  units, or when nothing before a unit is looked at.
-/

namespace LexicalSelection

namespace Model

variable {α : Type} {model : Model α} {units : List LexicalUnit} {later : List LexicalUnit}
  {earlier earlier' : List Decision}

open Window (Assigns)

/-- What the units behind one that leaves no choice gain is the same whatever was chosen for the
units up to there. -/
def Sealed [Zero α] [Add α] (model : Model α) (units : List LexicalUnit) : Prop :=
  ∀ front sole run later, units = front ++ sole :: (run ++ later) → sole.ambiguous = false →
    ∀ earlier earlier' decisions, Assigns (sole :: front.reverse) earlier →
      Assigns (sole :: front.reverse) earlier' → Assigns run.reverse decisions →
        model.gain decisions earlier later = model.gain decisions earlier' later

lemma gain_congr [Zero α] [Add α]
    (h : earlier.take model.lookbehind = earlier'.take model.lookbehind) (decisions : List Decision)
    (later : List LexicalUnit) :
    model.gain decisions earlier later = model.gain decisions earlier' later := by
  induction decisions generalizing later with
  | nil => rfl
  | cons decision decisions ih =>
      have htake : (decisions ++ earlier).take model.lookbehind
          = (decisions ++ earlier').take model.lookbehind := by
        have hfewer := congrArg (List.take (model.lookbehind - decisions.length)) h
        simp only [List.take_take] at hfewer
        rw [Nat.min_eq_left (Nat.sub_le _ _)] at hfewer
        rw [List.take_append, List.take_append, hfewer]
      rw [gain, gain, ih, evidence, evidence, around, around, htake]

/-- What decisions gain has nothing to do with how many hypotheses are kept. -/
lemma gain_withBeam [Zero α] [Add α] (model : Model α) (beam : Nat)
    (decisions earlier : List Decision)
    (later : List LexicalUnit) :
    ({ model with beam } : Model α).gain decisions earlier later
      = model.gain decisions earlier later := by
  induction decisions generalizing later with
  | nil => rfl
  | cons decision decisions ih =>
      rw [gain, gain, ih]
      rfl

lemma Sealed.withBeam [Zero α] [Add α] (h : model.Sealed units) (beam : Nat) :
    ({ model with beam } : Model α).Sealed units := by
  intro front sole run later hunits hsole earlier earlier' decisions hearlier hearlier' hdecisions
  rw [gain_withBeam model beam, gain_withBeam model beam]
  exact h front sole run later hunits hsole earlier earlier' decisions hearlier hearlier' hdecisions

/-- There is one choice for a unit that leaves none. -/
lemma decision_eq_of_sole {decision : Decision} (hvalid : decision.Valid)
    (hsole : decision.1.ambiguous = false) : decision = (decision.1, 0) := by
  have hone : decision.1.targets.length ≤ 1 := by simpa [LexicalUnit.ambiguous] using hsole
  rw [Decision.Valid, Nat.max_eq_left hone, Nat.lt_one_iff] at hvalid
  rw [← hvalid]

/-- A commit ends in a unit that leaves no choice, and no other one is looked at from behind it. -/
lemma sealed_of_lookbehind [Zero α] [Add α] (h : model.lookbehind ≤ 1) : model.Sealed units := by
  rintro front sole run later rfl hsole earlier earlier' decisions ⟨hunits, hvalid⟩
    ⟨hunits', hvalid'⟩ -
  refine gain_congr ?_ decisions later
  obtain ⟨last, others, rfl, rfl, -⟩ := List.map_eq_cons_iff.1 hunits
  obtain ⟨last', others', rfl, heq, -⟩ := List.map_eq_cons_iff.1 hunits'
  have hlast : last = last' := by
    rw [decision_eq_of_sole (hvalid last List.mem_cons_self) hsole,
      decision_eq_of_sole (hvalid' last' List.mem_cons_self) (heq ▸ hsole), heq]
  rw [hlast]
  obtain hnone | hone := Nat.le_one_iff_eq_zero_or_eq_one.1 h
  · rw [hnone, List.take_zero, List.take_zero]
  · rw [hone, List.take_succ_cons, List.take_succ_cons, List.take_zero, List.take_zero]

end Model

namespace Window

variable {α : Type} {model : Model α} {window window' : Window α} {input rest : Input}
  {unit : LexicalUnit} {units units' ahead later : List LexicalUnit} {history : List Decision}
  {allowed : List Decision → List LexicalUnit → Prop}

/-! ## Choices for many units -/

lemma assigns_append {others : List Decision} (h : Assigns (units ++ units') others) :
    ∃ front back, others = front ++ back ∧ Assigns units front ∧ Assigns units' back := by
  obtain ⟨hunits, hvalid⟩ := h
  obtain ⟨front, back, rfl, hfront, hback⟩ := List.map_eq_append_iff.1 hunits
  obtain ⟨hvalid, hvalid'⟩ := List.forall_mem_append.1 hvalid
  exact ⟨front, back, rfl, ⟨hfront, hvalid⟩, hback, hvalid'⟩

/-- A choice of some kind, in front of the units behind it, is still one without its last
decisions. -/
def Hereditary (allowed : List Decision → List LexicalUnit → Prop) : Prop :=
  ∀ front back later, allowed (front ++ back) later →
    allowed back ((front.map Prod.fst).reverse ++ later)

section Best

variable [AddCommGroup α]

/-- Behind a commit the choices before it count for nothing, when they are sealed off. -/
lemma gain_eq_of_sealed [LinearOrder α] (hrun : Run model history window input)
    {run : List LexicalUnit}
    (hsealed : model.Sealed ((history.map Prod.fst).reverse ++ (run ++ later)))
    {others earlier : List Decision} (hothers : Assigns run.reverse others)
    (hearlier : Assigns (history.map Prod.fst) earlier) :
    model.gain others earlier later = model.gain others history later := by
  have hhistory : Assigns (history.map Prod.fst) history := ⟨rfl, valid_of_run hrun⟩
  have hsole := sole_of_run hrun
  cases history with
  | nil => rw [List.map_eq_nil_iff.1 hearlier.1]
  | cons last history =>
      refine hsealed (history.map Prod.fst).reverse last.1 run later (by simp) (hsole last rfl)
        earlier _ others ?_ ?_ hothers
      · rwa [List.reverse_reverse]
      · rwa [List.reverse_reverse]

/-! ## All decisions -/

variable [LinearOrder α]

/-- The decisions gain as much as any others of some kind for the same units. -/
def Best (allowed : List Decision → List LexicalUnit → Prop) (model : Model α)
    (decisions : List Decision) (later : List LexicalUnit) : Prop :=
  ∀ others, Assigns (decisions.map Prod.fst) others → allowed others later →
    model.gain others [] later ≤ model.gain decisions [] later

/-- The first hypothesis for the next unit gains as much as any choice of some kind for that unit
and those that wait, whatever was chosen before them. -/
def LeadsAmong (allowed : List Decision → List LexicalUnit → Prop) (model : Model α)
    (history : List Decision) (window : Window α) (unit : LexicalUnit)
    (later : List LexicalUnit) : Prop :=
  ∀ front back, Assigns (unit :: window.pending) front → Assigns (history.map Prod.fst) back →
    allowed (front ++ back) later →
      model.gain front back later ≤ model.gain
        (chain 0 (unit :: window.pending) (window.nextLayer model unit :: window.layers))
        history later

/-- **What each commit keeps holds in every state of a run**, of the decisions that have been made
and the units behind them. -/
lemma holds_of_commits {property : List Decision → List LexicalUnit → Prop}
    (hstart : ∀ units, property [] units)
    (hcommit : ∀ {history window window' input rest unit ahead more},
      Run model history window input → window.refill model input = (window', .ok () rest) →
        window'.ahead = unit :: ahead → unit.ambiguous = false →
          stream history window' more = units → property history (window'.undecided ++ more) →
            property (window'.decided model ++ history) (ahead ++ more))
    (hrun : Run model history window input) {more : List LexicalUnit}
    (hunits : stream history window more = units) :
    property history (window.undecided ++ more) := by
  induction hrun generalizing more with
  | start => exact hstart _
  | @step history window window' _ _ hrun hrefill hne ih =>
      have hrefilled := refilled_refill (underway_of_run hrun) hrefill
      obtain ⟨read, hstream⟩ := hrefilled.exists_stream
      have hundecided : window.undecided ++ (read ++ more) = window'.undecided ++ more :=
        hstream [] more
      rw [stream_step hrefilled.underway.linked] at hunits
      have hbefore := ih ((hstream history more).trans hunits)
      rw [hundecided] at hbefore
      obtain ⟨unit, ahead, hahead⟩ := List.exists_cons_of_ne_nil hne
      cases hambiguous : unit.ambiguous with
      | true =>
          -- Nothing is decided, and the unit waits instead of being ahead.
          rw [decided_of_ambiguous model hahead hambiguous]
          simpa [step, hahead, hambiguous, undecided] using hbefore
      | false =>
          have hnext := hcommit hrun hrefill hahead hambiguous hunits hbefore
          simpa [step, hahead, hambiguous, Window.commit, undecided] using hnext
  | @next history window window' _ _ hrun hrefill _ _ ih =>
      obtain ⟨read, hstream⟩ := (refilled_refill (underway_of_run hrun) hrefill).exists_stream
      have hundecided : window.undecided ++ (read ++ more) = window'.undecided ++ more :=
        hstream [] more
      have hbefore := ih ((hstream history more).trans hunits)
      rw [hundecided] at hbefore
      exact hbefore
  | @broken history window window' _ _ _ hrun hrefill _ ih =>
      obtain ⟨units', -, -, rfl⟩ := grown_of_refill_error (underway_of_run hrun) hrefill
      have hbefore := @ih (units' ++ more) (by simpa [stream, undecided] using hunits)
      simpa [undecided] using hbefore

variable [IsOrderedAddMonoid α]

/-- A commit adds the best decisions to the best ones. -/
lemma Best.commit (hallowed : Hereditary allowed) (hlinked : window.IsLinked)
    (hahead : window.ahead = unit :: ahead) (hsole : unit.ambiguous = false)
    {more : List LexicalUnit}
    (hleads : LeadsAmong allowed model history window unit (ahead ++ more))
    (h : Best allowed model history (window.undecided ++ more)) :
    Best allowed model (window.decided model ++ history) (ahead ++ more) := by
  have hlinked := linked_nextLayer model hlinked unit
  have hunits := map_fst_chain hlinked hlinked.length_pos
  rw [decided_of_sole model hahead hsole]
  intro others hothers hkind
  rw [List.map_append, hunits] at hothers
  obtain ⟨front, back, rfl, hfront, hback⟩ := assigns_append hothers
  have hundecided : (unit :: window.pending).reverse ++ (ahead ++ more)
      = window.undecided ++ more := by
    simp [undecided, hahead]
  have hbackKind := hallowed front back _ hkind
  rw [hfront.1, hundecided] at hbackKind
  rw [Model.gain_append, Model.gain_append, List.append_nil, List.append_nil, hfront.1, hunits,
    hundecided]
  exact add_le_add (hleads front back hfront hback hkind) (h back hback hbackKind)

/-- **All decisions of a run are the best ones of some kind**, when those of each commit are. -/
lemma best_of_commits (hallowed : Hereditary allowed)
    (hcommits : ∀ {history window window' input rest unit ahead more},
      Run model history window input → window.refill model input = (window', .ok () rest) →
        window'.ahead = unit :: ahead → unit.ambiguous = false →
          stream history window' more = units →
            LeadsAmong allowed model history window' unit (ahead ++ more))
    (hrun : Run model history window input) {more : List LexicalUnit}
    (hunits : stream history window more = units) :
    Best allowed model history (window.undecided ++ more) := by
  refine holds_of_commits ?_ ?_ hrun hunits
  · rintro units others ⟨hothers, -⟩ -
    rw [List.map_eq_nil_iff.1 hothers]
  · intro history window window' input rest unit ahead more hrun hrefill hahead hsole hstream hbest
    have hlinked := (refilled_refill (underway_of_run hrun) hrefill).underway.linked
    exact hbest.commit hallowed hlinked hahead hsole
      (hcommits hrun hrefill hahead hsole hstream)

/-- Choices of every kind count. -/
def Everything : List Decision → List LexicalUnit → Prop := fun _ _ => True

/-- **All decisions of a run are the best ones**, when the beam covers the runs of units or nothing
before a unit is looked at, and choices before a commit are sealed off. -/
lemma best_of_run (hrun : Run model history window input) (more : List LexicalUnit)
    (hsearch : model.lookbehind = 0 ∨ CoversRuns model.beam (stream history window more))
    (hsealed : model.Sealed (stream history window more)) :
    Best Everything model history (window.undecided ++ more) := by
  refine best_of_commits (fun _ _ _ _ => trivial) ?_ hrun rfl
  intro history' window₁ window₂ input' rest unit ahead more' hrun' hrefill hahead _ hstream
  rw [← hstream] at hsearch hsealed
  have hrefilled := refilled_refill (underway_of_run hrun') hrefill
  have hsettled := hrefilled.settled (by simp [hahead])
  rw [hahead] at hsettled
  have hleads := (leads_next hrun' hrefill hahead more' hsearch).append (by simpa using hsettled)
    more'
  have hunits : stream history' window₂ more' = (history'.map Prod.fst).reverse
      ++ ((unit :: window₂.pending).reverse ++ (ahead ++ more')) := by
    simp [stream, undecided, hahead]
  intro front back hfront hback _
  rw [gain_eq_of_sealed hrun' (hunits ▸ hsealed) (by rwa [List.reverse_reverse]) hback]
  exact hleads front hfront

end Best

end Window

end LexicalSelection
