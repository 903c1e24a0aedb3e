import LexicalSelection.LexicalUnit.Stream
import LexicalSelection.Proofs.LexicalUnit.Rereading

/-!
# Where the units of a stream stand

Between two units of a stream stands text that belongs to neither: the blank in front of the second
one and, when segments end between them, the blanks in front of the separators and the separators
themselves.

* `Placement` — a unit of a stream with all of the text between it and the unit before it.
* `Located` — the units of a text in their places, and the text behind the last one.
* **`text_of_located`** — the places and the text behind them are the whole text.
* `Located.read_of_mem`, `Located.gap` — each unit is read where it stands, and what stands in front
  of it ends in its blank.
* `Located.exists_sources` — the source readings in the places.
* **`exists_located`**, **`readAll_of_located`** — every text has such places, and reading all of
  its units finds the units there.
-/

namespace LexicalSelection.LexicalUnit

/-- A unit of a stream where it stands. -/
structure Placement where
  /-- All of the text between this unit and the one before it. -/
  gap : Text
  /-- The unit. -/
  unit : LexicalUnit
  /-- Does the character that closes a unit stand behind its readings? -/
  closed : Bool
  deriving DecidableEq, Repr

/-- The text of a place: what stands in front of the unit, and the unit without its blank. -/
def Placement.text (place : Placement) : Text :=
  place.gap ++ { place.unit with blank := [] }.spelling place.closed

/-- The units of a text in their places, when `front` has been passed already since the last unit,
and the text behind the last unit.  Each unit is read where it stands. -/
inductive Located (tags : TagNumbers) : Text → Text → List Placement → Text → Prop
  | finish {front : Text} {unit : LexicalUnit} (h : read tags (.ofText unit.blank) = .ok unit [])
      (hend : unit.isEnd = true) : Located tags front unit.blank [] (front ++ unit.blank)
  | separator {front text tail : Text} {unit : LexicalUnit} {places : List Placement}
      (h : read tags (.ofText (unit.blank ++ Input.segmentSeparator :: text))
        = .ok unit (.ofText (Input.segmentSeparator :: text)))
      (hend : unit.isEnd = true)
      (hrest : Located tags (front ++ unit.blank ++ [Input.segmentSeparator]) text places tail) :
      Located tags front (unit.blank ++ Input.segmentSeparator :: text) places tail
  | unit {front text tail : Text} {unit : LexicalUnit} {closed : Bool} {places : List Placement}
      (h : read tags (.ofText (unit.spelling closed ++ text)) = .ok unit (.ofText text))
      (hopen : unit.isEnd = false) (hrest : Located tags [] text places tail) :
      Located tags front (unit.spelling closed ++ text)
        (⟨front ++ unit.blank, unit, closed⟩ :: places) tail

variable {tags : TagNumbers} {front text tail : Text} {unit : LexicalUnit}

/-! ## The text -/

lemma spelling_eq_blank_append (unit : LexicalUnit) (closed : Bool) :
    unit.spelling closed = unit.blank ++ { unit with blank := [] }.spelling closed := by
  obtain ⟨blank, source, targets⟩ := unit
  cases source with
  | none => exact (List.append_nil blank).symm
  | some source => simp [spelling]

/-- **Nothing of the text is lost between the places.** -/
lemma text_of_located {places : List Placement} (h : Located tags front text places tail) :
    front ++ text = places.flatMap Placement.text ++ tail := by
  induction h with
  | finish => rfl
  | separator _ _ _ ih => simpa using ih
  | unit _ _ _ ih =>
      rw [List.flatMap_cons, List.append_assoc, ← ih, Placement.text, spelling_eq_blank_append]
      simp

/-- Each unit is read where it stands. -/
lemma Located.read_of_mem {places : List Placement} {place : Placement}
    (h : Located tags front text places tail) (hplace : place ∈ places) :
    place.unit.isEnd = false ∧ ∃ behind,
      read tags (.ofText (place.unit.spelling place.closed ++ behind))
        = .ok place.unit (.ofText behind) := by
  induction h with
  | finish => cases hplace
  | separator _ _ _ ih => exact ih hplace
  | unit hread hopen _ ih =>
      rcases List.mem_cons.1 hplace with rfl | hplace
      · exact ⟨hopen, _, hread⟩
      · exact ih hplace

/-- In every place stands a source reading. -/
lemma Located.exists_sources {places : List Placement} (h : Located tags front text places tail) :
    ∃ sources : List Reading, places.map (fun place => place.unit.source) = sources.map some := by
  induction h with
  | finish => exact ⟨[], rfl⟩
  | separator _ _ _ ih => exact ih
  | unit _ hopen _ ih =>
      obtain ⟨sources, hsources⟩ := ih
      obtain ⟨source, hsource⟩ := Option.isSome_iff_exists.1 (Option.isNone_eq_false_iff.1 hopen)
      exact ⟨source :: sources, by rw [List.map_cons, List.map_cons, hsource, hsources]⟩

/-- A unit that is closed has not been cut off. -/
lemma not_cutOff_of_closed {behind : Text} (hopen : unit.isEnd = false)
    (h : read tags (.ofText (unit.spelling true ++ behind)) = .ok unit (.ofText behind)) :
    ¬CutOff tags (.ofText (unit.spelling true ++ behind)) := by
  rcases spelling_of_open h hopen with ⟨-, hinput, -⟩ | ⟨hclosed, -⟩
  · -- the character that closes the unit would be missing
    rw [spelling_closed hopen] at hinput
    have hlength := congrArg List.length hinput
    simp [Input.ofText] at hlength
  · exact hclosed

/-- The text is empty or ends in a separator. -/
def BehindSeparator (text : Text) : Prop := text = [] ∨ text.getLast? = some Input.segmentSeparator

/-- **What stands in front of a unit ends in its blank**, behind the last separator. -/
lemma Located.gap {places : List Placement} {place : Placement}
    (h : Located tags front text places tail)
    (hfront : BehindSeparator front) (hplace : place ∈ places) :
    ∃ passed, BehindSeparator passed ∧ place.gap = passed ++ place.unit.blank := by
  induction h with
  | finish => cases hplace
  | separator _ _ _ ih => exact ih (Or.inr (by simp)) hplace
  | unit _ _ _ ih =>
      rcases List.mem_cons.1 hplace with rfl | hplace
      · exact ⟨_, hfront, rfl⟩
      · exact ih (Or.inl rfl) hplace

/-- Where no segment ends, the blank of a unit is all that stands in front of it. -/
lemma blank_of_gap {place : Placement} {passed : Text} (h : BehindSeparator passed)
    (hgap : place.gap = passed ++ place.unit.blank) (hnone : Input.segmentSeparator ∉ place.gap) :
    place.gap = place.unit.blank := by
  rcases h with rfl | hlast
  · exact hgap
  · have hmem : Input.segmentSeparator ∈ passed := List.mem_of_getLast? hlast
    exact absurd (hgap ▸ List.mem_append_left _ hmem) hnone

/-! ## Reading -/

/-- **Every text has its units in places.** -/
lemma exists_located (tags : TagNumbers) (front text : Text) :
    ∃ places tail, Located tags front text places tail := by
  obtain ⟨unit, closed, behind, hread, htext, hbehind⟩ := exists_read_ofText tags text
  have hlength := read_length hread
  cases hend : unit.isEnd with
  | true =>
      rw [spelling_of_isEnd hend] at htext
      rcases hbehind (Or.inl hend) with rfl | ⟨more, rfl⟩
      · rw [List.append_nil] at htext
        subst htext
        exact ⟨[], _, .finish hread hend⟩
      · subst htext
        have : more.length < (unit.blank ++ Input.segmentSeparator :: more).length := by simp; omega
        obtain ⟨places, tail, hrest⟩ :=
          exists_located tags (front ++ unit.blank ++ [Input.segmentSeparator]) more
        exact ⟨places, tail, .separator hread hend hrest⟩
  | false =>
      have : behind.length < text.length := by
        simp only [hend, Bool.false_eq_true, if_false, Input.ofText, List.length_map] at hlength
        omega
      obtain ⟨places, tail, hrest⟩ := exists_located tags [] behind
      subst htext
      exact ⟨_, tail, .unit hread hend hrest⟩
termination_by text.length

/-- At the end of a text no unit stands. -/
lemma located_nil (tags : TagNumbers) : Located tags [] [] [] [] := by
  have hread : read tags (.ofText []) = .ok { blank := [] } [] := by
    simp [read, Input.readBlank]
  exact @Located.finish tags [] { blank := [] } hread rfl

lemma readAll_of_last {input : Input} (h : read tags input = .ok unit [])
    (hend : unit.isEnd = true) :
    readAll tags input = ([unit], none) := by
  rw [readAll]
  split
  · rename_i hfault
    cases h.symm.trans hfault
  · rename_i hfound
    cases h.symm.trans hfound
    rw [dif_pos hend]

lemma readAll_of_end {input behind : Input} {item : Item}
    (h : read tags input = .ok unit (item :: behind)) (hend : unit.isEnd = true) :
    readAll tags input = (unit :: (readAll tags behind).1, (readAll tags behind).2) := by
  rw [readAll]
  split
  · rename_i hfault
    cases h.symm.trans hfault
  · rename_i hfound
    cases h.symm.trans hfound
    rw [dif_pos hend]

lemma readAll_of_open {input rest : Input} (h : read tags input = .ok unit rest)
    (hopen : unit.isEnd = false) :
    readAll tags input = (unit :: (readAll tags rest).1, (readAll tags rest).2) := by
  rw [readAll]
  split
  · rename_i hfault
    cases h.symm.trans hfault
  · rename_i hfound
    cases h.symm.trans hfound
    rw [dif_neg (Bool.eq_false_iff.1 hopen)]

/-- **Reading a text finds the units in their places**, and the ends of its segments between
them. -/
lemma readAll_of_located {places : List Placement} (h : Located tags front text places tail) :
    (readAll tags (.ofText text)).1.filter (!·.isEnd) = places.map Placement.unit ∧
      (readAll tags (.ofText text)).2 = none := by
  induction h with
  | finish hread hend =>
      rw [readAll_of_last hread hend]
      simp [hend]
  | separator hread hend _ ih =>
      rw [readAll_of_end hread hend, List.filter_cons_of_neg (by simp [hend])]
      exact ih
  | unit hread hopen _ ih =>
      rw [readAll_of_open hread hopen, List.filter_cons_of_pos (by rw [hopen]; rfl), ih.1]
      exact ⟨rfl, ih.2⟩

end LexicalSelection.LexicalUnit
