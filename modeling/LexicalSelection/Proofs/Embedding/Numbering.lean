import LexicalSelection.Proofs.Embedding.Vocabulary
import LexicalSelection.Proofs.LexicalUnit.Places
import LexicalSelection.Proofs.Text.Utf8
import Mathlib.Data.List.Forall2
import Mathlib.Data.List.SplitBy

/-!
# How a corpus is numbered

Reading a corpus gives each of its units a number, by the form of its source reading, and breaks the
row of numbers into sentences.

* `flatten_sentencesOf`, `nil_mem_sentencesOf` — sentences leave no unit out, and none of them is
  empty but the only one of a corpus without units.
* `NumberedCorpus.read_of_located` — what is read are the units in their places.
* `NumberedCorpus.Numbers` — what a numbered corpus says about the forms of its units.
* **`NumberedCorpus.numbers_read`** — what reading any text gives says that about the units in it.
-/

namespace LexicalSelection.Embedding

open LexicalUnit (Located Placement)

/-! ## Sentences -/

/-- Sentences have all of the units in their order. -/
lemma flatten_sentencesOf (units : List LexicalUnit) : (sentencesOf units).flatten = units := by
  rw [sentencesOf]
  split
  · rename_i hnil
    simp [hnil]
  · exact List.flatten_splitBy _ units

/-- No sentence is empty but the one of no units. -/
lemma nil_mem_sentencesOf {units : List LexicalUnit} : [] ∈ sentencesOf units ↔ units = [] := by
  rw [sentencesOf]
  split
  · rename_i hnil
    simp [hnil]
  · rename_i hne
    exact iff_of_false (List.nil_notMem_splitBy _ _) hne

namespace NumberedCorpus

lemma flatten_sentences_ofVocabulary (vocabulary : Vocabulary) (units : List LexicalUnit) :
    (ofVocabulary vocabulary units).sentences.flatten
      = (units.map sourceForm).map vocabulary.idOf := by
  rw [ofVocabulary, ← List.map_flatten, flatten_sentencesOf, List.map_map]
  rfl

/-- **What is read of a text are its units in their places.** -/
lemma read_of_located {minCount : Nat} {text tail : Text} {places : List Placement}
    (h : Located (fun _ => none) [] text places tail) :
    read minCount text.utf8 = (ofUnits minCount (places.map Placement.unit), none) := by
  have hinput : Input.ofBytes text.utf8 = Input.ofText text := Utf8.items_utf8 text
  have hunits : readUnits text.utf8 = (places.map Placement.unit, none) := by
    obtain ⟨hplaces, hfault⟩ := LexicalUnit.readAll_of_located h
    rw [readUnits, hinput]
    exact Prod.ext hplaces hfault
  rw [read, hunits]

/-! ## Numbers -/

/-- The numbers of a corpus are those of the forms of its units, in their order. -/
structure Numbers (minCount : Nat) (forms : List Text) (corpus : NumberedCorpus) : Prop where
  /-- Each unit has an entry: the number of its form, if this is not empty and not rare, and
  otherwise 0, which no such form has. -/
  entries : List.Forall₂
    (fun form entry =>
      if form ≠ [] ∧ minCount ≤ forms.count form then
        entry ≠ 0 ∧ corpus.vocabulary.id? form = some entry
      else entry = 0)
    forms corpus.sentences.flatten
  /-- A number counts its entries. -/
  counts : ∀ id, corpus.vocabulary.count id = corpus.sentences.flatten.count id
  /-- Number and form are inverse to each other. -/
  inverse : ∀ id form,
    corpus.vocabulary.form? id = some form ↔ corpus.vocabulary.id? form = some id
  /-- The forms with a number are the empty one and those of units that are not rare. -/
  known : ∀ form, (∃ id, corpus.vocabulary.id? form = some id) ↔
    form = [] ∨ form ∈ forms ∧ minCount ≤ forms.count form
  /-- From 1 on the numbers are ordered by falling count, and equal counts by first occurrence. -/
  ordered : ∀ id id' form form', id ≠ 0 → id < id' → corpus.vocabulary.form? id = some form →
    corpus.vocabulary.form? id' = some form' →
    corpus.vocabulary.count id' < corpus.vocabulary.count id ∨
      corpus.vocabulary.count id = corpus.vocabulary.count id' ∧
        forms.idxOf form < forms.idxOf form'
  /-- A sentence is empty only where there is no unit at all. -/
  nil_mem : [] ∈ corpus.sentences ↔ forms = []

variable {minCount : Nat}

/-- The entry of a form. -/
lemma entry_of_ranks {forms : List Text} {vocabulary : Vocabulary} {form : Text}
    (h : vocabulary.Ranks minCount forms) (hmem : form ∈ forms) :
    if form ≠ [] ∧ minCount ≤ forms.count form then
      vocabulary.idOf form ≠ 0 ∧ vocabulary.id? form = some (vocabulary.idOf form)
    else vocabulary.idOf form = 0 := by
  have hzero := h.idOf_eq_zero_iff hmem
  split
  · rename_i hknown
    have hne : vocabulary.idOf form ≠ 0 := by
      rw [Ne, hzero]
      exact not_or.2 ⟨hknown.1, Nat.not_lt.2 hknown.2⟩
    exact ⟨hne, h.form?_eq_some_iff.1 ((h.idOf_eq_iff hne).1 rfl)⟩
  · rename_i hunknown
    rw [hzero]
    rwa [not_and_or, not_not, Nat.not_le] at hunknown

/-- A corpus of units is numbered by the forms of its units. -/
lemma numbers_ofUnits (minCount : Nat) (units : List LexicalUnit) :
    (ofUnits minCount units).Numbers minCount (units.map sourceForm) := by
  have h := Vocabulary.ranks_trim minCount (units.map sourceForm)
  have hflatten := flatten_sentences_ofVocabulary
    ((Vocabulary.ofForms (units.map sourceForm)).trim minCount) units
  refine ⟨?_, fun id => ?_, fun id form => h.form?_eq_some_iff,
    fun form => h.exists_id?_eq_some_iff, fun id id' form form' => h.count_lt_or, ?_⟩
  · rw [ofUnits, hflatten, List.forall₂_map_right_iff, List.forall₂_same]
    exact fun form hmem => entry_of_ranks h hmem
  · rw [ofUnits, hflatten]
    exact (h.count_map_idOf id).symm
  · rw [ofUnits, ofVocabulary, List.map_eq_nil_iff, ← nil_mem_sentencesOf]
    simp

/-- The form of a unit is that of its source reading. -/
lemma map_sourceForm {units : List LexicalUnit} {sources : List Reading}
    (h : units.map LexicalUnit.source = sources.map some) :
    units.map sourceForm = sources.map Reading.form := by
  have hforms : units.map sourceForm
      = (units.map LexicalUnit.source).map fun source => (source.map Reading.form).getD [] := by
    rw [List.map_map]
    rfl
  rw [hforms, h, List.map_map]
  rfl

/-- **Reading any text numbers the units that stand in it**, and never fails.  What is numbered are
the forms of the source readings, which stand in the places of the units. -/
theorem numbers_read (minCount : Nat) (text : Text) :
    ∃ (places : List Placement) (sources : List Reading) (tail : Text),
      Located (fun _ => none) [] text places tail ∧
      text = places.flatMap Placement.text ++ tail ∧
      places.map (fun place => place.unit.source) = sources.map some ∧
      (read minCount text.utf8).2 = none ∧
      (read minCount text.utf8).1.Numbers minCount (sources.map Reading.form) := by
  obtain ⟨places, tail, hlocated⟩ := LexicalUnit.exists_located (fun _ => none) [] text
  obtain ⟨sources, hsources⟩ := hlocated.exists_sources
  refine ⟨places, sources, tail, hlocated, LexicalUnit.text_of_located hlocated, hsources, ?_⟩
  have hnumbers := numbers_ofUnits minCount (places.map Placement.unit)
  rw [map_sourceForm (by rwa [List.map_map])] at hnumbers
  rw [read_of_located hlocated]
  exact ⟨rfl, hnumbers⟩

/-- Six units in two segments, and a line break in the second one.  The forms `b` and `a<n>` occur
twice; the empty form and `c`, which is too rare, have the number 0. -/
theorem numbers_read_two_segments :
    let text : Text := "^b$ ^a<n>/x$\x00^b$\n^/y$ ^a<n>$ ^c$".toList
    let corpus := (read 2 text.utf8).1
    corpus.Numbers 2 (["b", "a<n>", "b", "", "a<n>", "c"].map String.toList) ∧
      corpus.sentences = [[1, 2, 1], [0, 2, 0]] ∧
      corpus.vocabulary.form? 2 = some "a<n>".toList := by
  intro text corpus
  obtain ⟨places, sources, tail, hlocated, -, hsources, -, hnumbers⟩ := numbers_read 2 text
  have hforms : sources.map Reading.form
      = ["b", "a<n>", "b", "", "a<n>", "c"].map String.toList := by
    have hunits := (LexicalUnit.readAll_of_located hlocated).1
    rw [← map_sourceForm ((List.map_map.trans hsources)), ← hunits]
    decide +kernel
  exact ⟨hforms ▸ hnumbers, by decide +kernel, by decide +kernel⟩

end NumberedCorpus

end LexicalSelection.Embedding
