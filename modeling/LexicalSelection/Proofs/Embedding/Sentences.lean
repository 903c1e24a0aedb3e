import LexicalSelection.Proofs.Embedding.Numbering

/-!
# Where a sentence begins

A corpus is broken into sentences at the line breaks in the blanks of its units.  The blank of a
unit is all that stands between it and the unit before it, unless a segment ends there: then what
stands in front of the separator belongs to no unit, and a line break there breaks no sentence.

* `sentenceAt` — which sentence an entry of a corpus belongs to.
* `sentenceAt_succ_eq_iff` — the sentences of split lists.
* **`NumberedCorpus.sentenceAt_read`** — which neighbouring units of a text are in one sentence.
* `NumberedCorpus.break_lost` — a line break in front of a separator is lost.
-/

namespace LexicalSelection.Embedding

open LexicalUnit (BehindSeparator Located Placement)

/-- The number of the sentence to which the entry at a place of the whole corpus belongs. -/
def sentenceAt {α : Type} : List (List α) → Nat → Nat
  | [], _ => 0
  | sentence :: sentences, place =>
    if place < sentence.length then 0 else sentenceAt sentences (place - sentence.length) + 1

variable {α β : Type} {place : Nat}

lemma sentenceAt_of_lt {sentence : List α} {sentences : List (List α)}
    (h : place < sentence.length) : sentenceAt (sentence :: sentences) place = 0 := if_pos h

lemma sentenceAt_of_le {sentence : List α} {sentences : List (List α)}
    (h : sentence.length ≤ place) : sentenceAt (sentence :: sentences) place
      = sentenceAt sentences (place - sentence.length) + 1 := if_neg (Nat.not_lt.2 h)

lemma sentenceAt_map (f : α → β) (sentences : List (List α)) (place : Nat) :
    sentenceAt (sentences.map (·.map f)) place = sentenceAt sentences place := by
  induction sentences generalizing place with
  | nil => rfl
  | cons sentence sentences ih => simp only [List.map_cons, sentenceAt, List.length_map, ih]

/-- **Two neighbours are in one sentence just when the relation holds between them**, if it holds
between neighbours inside of each sentence, and not between the last of a sentence and the first of
the next. -/
lemma sentenceAt_succ_eq_iff {r : α → α → Bool} {sentences : List (List α)} {x y : α}
    (hinside : ∀ sentence ∈ sentences, sentence.IsChain fun x y => r x y)
    (hbetween : sentences.IsChain fun a b => ∃ ha hb, r (a.getLast ha) (b.head hb) = false)
    (hx : sentences.flatten[place]? = some x) (hy : sentences.flatten[place + 1]? = some y) :
    sentenceAt sentences place = sentenceAt sentences (place + 1) ↔ r x y := by
  induction sentences generalizing place with
  | nil => simp at hx
  | cons sentence sentences ih =>
      rw [List.flatten_cons] at hx hy
      rcases lt_trichotomy (place + 1) sentence.length with hlt | heq | hgt
      · -- both stand in the first sentence
        rw [List.getElem?_append_left (by omega)] at hx hy
        obtain ⟨_, rfl⟩ := List.getElem?_eq_some_iff.1 hx
        obtain ⟨_, rfl⟩ := List.getElem?_eq_some_iff.1 hy
        rw [sentenceAt_of_lt (by omega), sentenceAt_of_lt hlt]
        exact iff_of_true rfl
          (List.isChain_iff_getElem.1 (hinside sentence List.mem_cons_self) place hlt)
      · -- the first one ends the first sentence, and the second one begins the next sentence
        rw [List.getElem?_append_left (by omega)] at hx
        rw [List.getElem?_append_right (by omega), heq, Nat.sub_self] at hy
        rw [sentenceAt_of_lt (by omega), sentenceAt_of_le (by omega)]
        cases sentences with
        | nil => simp at hy
        | cons next sentences =>
            obtain ⟨ha, hb, hr⟩ := (List.isChain_cons_cons.1 hbetween).1
            have hlast : sentence.getLast ha = x := by
              rw [List.getLast_eq_iff_getLast?_eq_some, List.getLast?_eq_getElem?, ← heq]
              exact hx
            have hhead : next.head hb = y := by
              obtain ⟨first, others, rfl⟩ := List.exists_cons_of_ne_nil hb
              simpa using hy
            rw [hlast, hhead] at hr
            simp [hr]
      · -- both stand behind the first sentence
        rw [List.getElem?_append_right (by omega)] at hx hy
        rw [show place + 1 - sentence.length = place - sentence.length + 1 by omega] at hy
        rw [sentenceAt_of_le (by omega), sentenceAt_of_le (by omega), Nat.add_right_cancel_iff,
          show place + 1 - sentence.length = place - sentence.length + 1 by omega]
        exact ih (fun s hs => hinside s (List.mem_cons_of_mem _ hs)) hbetween.tail hx hy

/-- Two neighbouring units are in different sentences just when a line break is in the blank of the
second one. -/
lemma sentenceAt_sentencesOf {units : List LexicalUnit} {unit : LexicalUnit}
    (h : units[place + 1]? = some unit) :
    sentenceAt (sentencesOf units) place ≠ sentenceAt (sentencesOf units) (place + 1) ↔
      '\n' ∈ unit.blank := by
  obtain ⟨hlt, _⟩ := List.getElem?_eq_some_iff.1 h
  have hne : units ≠ [] := List.ne_nil_of_length_pos (by omega)
  let sentences := units.splitBy fun _ next => next.newlines = 0
  have hflatten : sentences.flatten = units := List.flatten_splitBy _ units
  have hprevious : sentences.flatten[place]? = some units[place] := by
    rw [hflatten, List.getElem?_eq_getElem]
  have hiff := sentenceAt_succ_eq_iff (fun _ => List.isChain_of_mem_splitBy)
    (List.isChain_getLast_head_splitBy _ units) hprevious (hflatten ▸ h)
  rw [sentencesOf, if_neg hne, Ne, hiff, decide_eq_true_eq, LexicalUnit.newlines,
    List.count_eq_zero, not_not]

namespace NumberedCorpus

/-- **Which neighbouring units of a text are in one sentence.**  Sentences begin at the units with a
line break in their blank.  This is what stands behind the last separator in front of them, and
where no segment ends it is all that stands between them and the units before them. -/
theorem sentenceAt_read (minCount : Nat) (text : Text) :
    ∃ places tail, Located (fun _ => none) [] text places tail ∧
      text = places.flatMap Placement.text ++ tail ∧
      (read minCount text.utf8).2 = none ∧
      (read minCount text.utf8).1.sentences.flatten.length = places.length ∧
      ∀ index place, places[index + 1]? = some place →
        (∃ passed, BehindSeparator passed ∧ place.gap = passed ++ place.unit.blank) ∧
        (sentenceAt (read minCount text.utf8).1.sentences index
            ≠ sentenceAt (read minCount text.utf8).1.sentences (index + 1) ↔
          '\n' ∈ place.unit.blank) ∧
        (Input.segmentSeparator ∉ place.gap →
          (sentenceAt (read minCount text.utf8).1.sentences index
              ≠ sentenceAt (read minCount text.utf8).1.sentences (index + 1) ↔
            '\n' ∈ place.gap)) := by
  obtain ⟨places, tail, hlocated⟩ := LexicalUnit.exists_located (fun _ => none) [] text
  refine ⟨places, tail, hlocated, LexicalUnit.text_of_located hlocated, ?_⟩
  rw [read_of_located hlocated]
  refine ⟨rfl, by simp [ofUnits, flatten_sentences_ofVocabulary], fun index place hplace => ?_⟩
  obtain ⟨passed, hpassed, hgap⟩ := hlocated.gap (Or.inl rfl) (List.mem_of_getElem? hplace)
  have hsentence : sentenceAt (ofUnits minCount (places.map Placement.unit)).sentences index
      ≠ sentenceAt (ofUnits minCount (places.map Placement.unit)).sentences (index + 1) ↔
        '\n' ∈ place.unit.blank := by
    rw [ofUnits, ofVocabulary, sentenceAt_map, sentenceAt_map]
    exact sentenceAt_sentencesOf (by rw [List.getElem?_map, hplace]; rfl)
  refine ⟨⟨passed, hpassed, hgap⟩, hsentence, fun hnone => ?_⟩
  rw [LexicalUnit.blank_of_gap hpassed hgap hnone]
  exact hsentence

/-- Five units in three segments.  A line break in the blank between two units breaks a sentence,
and so does one behind a separator, but not one in front of it. -/
theorem sentenceAt_read_three_segments :
    let text : Text := "^a$ ^b$\n^c$\n\x00^d$\x00\n^e$".toList
    let sentences := (read 1 text.utf8).1.sentences
    sentenceAt sentences 0 = sentenceAt sentences 1 ∧
      sentenceAt sentences 1 ≠ sentenceAt sentences 2 ∧
      sentenceAt sentences 2 = sentenceAt sentences 3 ∧
      sentenceAt sentences 3 ≠ sentenceAt sentences 4 := by
  intro text sentences
  obtain ⟨places, tail, hlocated, -, -, -, hsentences⟩ := sentenceAt_read 1 text
  have hblanks : (places.map Placement.unit).map LexicalUnit.blank
      = [[], [' '], ['\n'], [], ['\n']] := by
    rw [← (LexicalUnit.readAll_of_located hlocated).1]
    decide +kernel
  rw [List.map_map] at hblanks
  have hbreak : ∀ index blank, [[], [' '], ['\n'], [], ['\n']][index + 1]? = some blank →
      (sentenceAt sentences index ≠ sentenceAt sentences (index + 1) ↔ '\n' ∈ blank) := by
    intro index blank hblank
    rw [← hblanks, List.getElem?_map] at hblank
    obtain ⟨place, hplace, rfl⟩ := Option.map_eq_some_iff.1 hblank
    exact (hsentences index place hplace).2.1
  exact ⟨not_not.1 ((hbreak 0 _ rfl).not.2 (by decide)), (hbreak 1 _ rfl).2 (by decide),
    not_not.1 ((hbreak 2 _ rfl).not.2 (by decide)), (hbreak 3 _ rfl).2 (by decide)⟩

/-- **A line break in front of a separator is lost**: it stands between the two units, and yet they
are in one sentence. -/
theorem break_lost :
    let text : Text := "^a$\n\x00^b$".toList
    ∃ first second, Located (fun _ => none) [] text [first, second] [] ∧ '\n' ∈ second.gap ∧
      (read 1 text.utf8).1.sentences = [[1, 2]] ∧
      sentenceAt (read 1 text.utf8).1.sentences 0
        = sentenceAt (read 1 text.utf8).1.sentences 1 := by
  intro text
  let a : LexicalUnit := ⟨[], some ⟨[.plain 'a'], []⟩, []⟩
  let b : LexicalUnit := ⟨[], some ⟨[.plain 'b'], []⟩, []⟩
  have hsecond : Located (fun _ => none) (['\n'] ++ [Input.segmentSeparator]) "^b$".toList
      [⟨['\n', Input.segmentSeparator], b, true⟩] [] :=
    @Located.unit _ _ [] [] b true _ (by decide +kernel) rfl (LexicalUnit.located_nil _)
  have hseparator : Located (fun _ => none) [] "\n\x00^b$".toList
      [⟨['\n', Input.segmentSeparator], b, true⟩] [] :=
    @Located.separator _ [] _ _ ⟨['\n'], none, []⟩ _ (by decide +kernel) rfl hsecond
  have hfirst : Located (fun _ => none) [] text
      [⟨[], a, true⟩, ⟨['\n', Input.segmentSeparator], b, true⟩] [] :=
    @Located.unit _ _ _ _ a true _ (by decide +kernel) rfl hseparator
  have hsentences : (read 1 text.utf8).1.sentences = [[1, 2]] := by decide +kernel
  refine ⟨_, _, hfirst, by decide, hsentences, ?_⟩
  rw [hsentences]
  rfl

end NumberedCorpus

end LexicalSelection.Embedding
