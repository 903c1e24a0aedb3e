import LexicalSelection.Proofs.Selector.Calls
import LexicalSelection.Proofs.Training.Loading

/-!
# Which pairs of streams make a corpus

The two streams are read side by side, up to the end of their first segments.  What decides is
whether their units there fit one another; no later segment counts.

* `Model.firstWords`, `Model.allWords` — the units of the first segment, and those of all segments.
* `Corpus.Fits` — a gold unit fits a raw one.
* `Corpus.Picks` — the target of an example is the one that its gold unit asks for.
* `Corpus.SplitAtBreaks` — sentences begin at the line breaks.
* **`load_iff_fits`** — two texts make a corpus just when the units of their first segments fit, and
  the corpus has all of these units.
* `load_skips_segments` — a segment behind a separator is left out, whether it fits or not.
-/

namespace LexicalSelection

/-! ## Units without the ends of segments -/

/-- The units that are to be translated: all but the ends of segments. -/
def LexicalUnit.words (units : List LexicalUnit) : List LexicalUnit :=
  units.filter (!·.isEnd)

namespace Model

variable {α : Type} {model : Model α} {input rest : Input} {unit : LexicalUnit}

/-- The units of the first segment of an input, without its end. -/
def firstWords (model : Model α) (input : Input) : List LexicalUnit :=
  LexicalUnit.words (model.segmentUnits input).1

/-- The units of all segments of an input, without their ends. -/
def allWords (model : Model α) (input : Input) : List LexicalUnit :=
  LexicalUnit.words (model.readableUnits input)

lemma firstWords_of_end (h : model.readUnit input = .ok unit rest) (hend : unit.isEnd = true) :
    model.firstWords input = [] := by
  simp [firstWords, segmentUnits_of_end h hend, LexicalUnit.words, hend]

lemma firstWords_of_unit (h : model.readUnit input = .ok unit rest) (hopen : unit.isEnd = false) :
    model.firstWords input = unit :: model.firstWords rest := by
  simp [firstWords, segmentUnits_of_unit h hopen, LexicalUnit.words, hopen]

/-- A text without separators has no segment but the first. -/
lemma allWords_of_no_separator {text : Text} (h : Input.segmentSeparator ∉ text) :
    model.allWords (.ofText text) = model.firstWords (.ofText text) := by
  obtain ⟨units, rest, hsegment⟩ := exists_segment_ofText model text
  obtain rfl : rest = [] := hsegment.rest_eq_nil (by simpa [Input.ofText] using h)
  have hunits := segmentUnits_of_segment hsegment
  cases text with
  | nil =>
      have hread : model.readUnit (.ofText []) = .ok (model.annotateUnit {}) [] := by
        simp [readUnit, LexicalUnit.read, Input.readBlank, Input.ofText, Found.map]
      rw [firstWords_of_end hread rfl, allWords, Input.ofText, List.map_nil, readableUnits]
      rfl
  | cons c text =>
      rw [allWords, readableUnits_of_last (by simp [Input.ofText]) hunits (by simp), firstWords,
        hunits]

end Model

namespace Corpus

variable {α : Type} {model : Model α} {raw gold : LexicalUnit} {new : Example}

/-! ## A pair of units -/

/-- The gold unit fits the raw one.  Both have as many line breaks before them; the raw unit has a
target, and where it has several, the gold unit has just one, with the form of one of them. -/
structure Fits (raw gold : LexicalUnit) : Prop where
  newlines : raw.newlines = gold.newlines
  targets : raw.targets ≠ []
  sole : raw.ambiguous = true →
    ∃ target, gold.targets = [target] ∧ target.form ∈ raw.targets.map Reading.form

/-- The target of an example is the one that its gold unit asks for: the first with the form of the
gold target, where there are several, and else the first of all. -/
structure Picks (ex : Example) (gold : LexicalUnit) : Prop where
  first : ex.unit.ambiguous = true → ∃ target, gold.targets = [target] ∧
    (ex.unit.targets.map Reading.form)[ex.gold]? = some target.form ∧
    ∀ index < ex.gold, (ex.unit.targets.map Reading.form)[index]? ≠ some target.form
  sole : ex.unit.ambiguous = false → ex.gold = 0

lemma exists_exampleOf (h : Fits raw gold) : ∃ new, exampleOf raw gold = .ok new := by
  rw [exampleOf, if_neg h.targets]
  cases hambiguous : raw.ambiguous with
  | false => exact ⟨_, rfl⟩
  | true =>
      obtain ⟨target, htarget, hform⟩ := h.sole hambiguous
      cases hindex : (raw.targets.map Reading.form).idxOf? target.form with
      | none => exact absurd hform (List.idxOf?_eq_none_iff.1 hindex)
      | some index => exact ⟨⟨raw, index⟩, by simp [htarget, hindex]⟩

lemma fits_of_exampleOf (hnewlines : raw.newlines = gold.newlines)
    (h : exampleOf raw gold = .ok new) : new.unit = raw ∧ Fits raw gold ∧ Picks new gold := by
  unfold exampleOf at h
  split at h
  · cases h
  · rename_i htargets
    split at h
    · rename_i hsole
      cases h
      rw [Bool.not_eq_true'] at hsole
      exact ⟨rfl, ⟨hnewlines, htargets, by simp [hsole]⟩, by simp [hsole], fun _ => rfl⟩
    · rename_i hambiguous
      rw [Bool.not_eq_true', Bool.not_eq_false] at hambiguous
      split at h
      · rename_i target htarget
        split at h
        · rename_i index hindex
          cases h
          obtain ⟨hlt, hform, hfirst⟩ := List.idxOf?_eq_some_iff.1 hindex
          refine ⟨rfl, ⟨hnewlines, htargets, fun _ => ⟨target, htarget, ?_⟩⟩,
            fun _ => ⟨target, htarget, ?_, ?_⟩, by simp [hambiguous]⟩
          · exact hform ▸ List.getElem_mem hlt
          · rw [List.getElem?_eq_getElem hlt, hform]
          · intro earlier hearlier hsame
            obtain ⟨hbound, hsame⟩ := List.getElem?_eq_some_iff.1 hsame
            exact hfirst earlier hearlier hsame
        · cases h
      · cases h

/-! ## Sentences -/

/-- Sentences begin at the line breaks: each but the first begins with a unit behind a line break,
and no other unit has one before it. -/
def SplitAtBreaks : Corpus → Prop
  | [] => False
  | sentence :: later =>
    (∀ ex ∈ sentence, ex.unit.newlines = 0) ∧
    ∀ sentence ∈ later, ∃ first others, sentence = first :: others ∧ 0 < first.unit.newlines ∧
      ∀ ex ∈ others, ex.unit.newlines = 0

lemma splitAtBreaks_consExample {sentences : Sentence × List Sentence}
    (h : SplitAtBreaks (sentences.1 :: sentences.2)) :
    let longer := consExample (decide (0 < new.unit.newlines)) new sentences
    SplitAtBreaks (longer.1 :: longer.2) := by
  obtain ⟨sentence, later⟩ := sentences
  obtain ⟨hsentence, hlater⟩ := h
  rw [consExample]
  split
  · rename_i hbreak
    refine ⟨by simp, List.forall_mem_cons.2 ⟨⟨new, sentence, rfl, ?_, hsentence⟩, hlater⟩⟩
    simpa using hbreak
  · rename_i hbreak
    refine ⟨List.forall_mem_cons.2 ⟨?_, hsentence⟩, hlater⟩
    simpa using hbreak

/-! ## Two streams -/

/-- What has been loaded are the units of the first raw segment, each with the target that its gold
unit asks for. -/
lemma spec_of_loadFrom {line count : Nat} {raw gold : Input} {sentences : Sentence × List Sentence}
    (h : loadFrom model line count raw gold = .ok sentences) :
    (sentences.1 ++ sentences.2.flatten).map Example.unit = model.firstWords raw ∧
    List.Forall₂ (fun ex gold => Fits ex.unit gold ∧ Picks ex gold)
      (sentences.1 ++ sentences.2.flatten) (model.firstWords gold) ∧
    SplitAtBreaks (sentences.1 :: sentences.2) := by
  fun_induction loadFrom model line count raw gold generalizing sentences with
  | case3 =>
      -- Both segments end here.
      rename_i hraw goldUnit _ hgold hend hgoldEnd
      cases h
      rw [Model.firstWords_of_end hraw hend, Model.firstWords_of_end hgold hgoldEnd]
      exact ⟨rfl, .nil, by simp [SplitAtBreaks]⟩
  | case8 =>
      -- A pair of units that fit, in front of what the others give.
      rename_i hraw goldUnit _ hgold hopen hgoldOpen hnewlines startsSentence _ _ new hnew _ ih
      obtain ⟨rfl, hfits, hpicks⟩ := fits_of_exampleOf (by simpa using hnewlines) hnew
      obtain ⟨others, hothers, rfl⟩ := map_eq_ok.1 h
      obtain ⟨hunits, hpairs, hsplit⟩ := ih hothers
      rw [flatten_consExample, Model.firstWords_of_unit hraw (by simpa using hopen),
        Model.firstWords_of_unit hgold (by simpa using hgoldOpen), List.map_cons, hunits]
      exact ⟨rfl, .cons ⟨hfits, hpicks⟩ hpairs, splitAtBreaks_consExample hsplit⟩
  | _ => cases h

/-- When the units of the first segments fit, reading them side by side meets no problem. -/
lemma exists_loadFrom {line count : Nat} {raw gold : Input} (hraw : ¬raw.Broken)
    (hgold : ¬gold.Broken)
    (hfits : List.Forall₂ Fits (model.firstWords raw) (model.firstWords gold)) :
    ∃ sentences, loadFrom model line count raw gold = .ok sentences := by
  fun_induction loadFrom model line count raw gold with
  | case1 => exact absurd (Model.broken_of_readUnit ‹_›) hraw
  | case2 => exact absurd (Model.broken_of_readUnit ‹_›) hgold
  | case3 => exact ⟨_, rfl⟩
  | case4 =>
      -- Behind the last raw unit there is a gold one.
      rename_i hreadRaw goldUnit _ hreadGold hend hopen
      rw [Model.firstWords_of_end hreadRaw hend,
        Model.firstWords_of_unit hreadGold (by simpa using hopen)] at hfits
      cases hfits
  | case5 =>
      -- Behind the last gold unit there is a raw one.
      rename_i hreadRaw goldUnit _ hreadGold hopen hend
      rw [Model.firstWords_of_end hreadGold hend,
        Model.firstWords_of_unit hreadRaw (by simpa using hopen)] at hfits
      cases hfits
  | case6 =>
      rename_i hreadRaw goldUnit _ hreadGold hopen hgoldOpen hnewlines
      rw [Model.firstWords_of_unit hreadRaw (by simpa using hopen),
        Model.firstWords_of_unit hreadGold (by simpa using hgoldOpen)] at hfits
      exact absurd (List.forall₂_cons.1 hfits).1.newlines hnewlines
  | case7 =>
      rename_i hreadRaw goldUnit _ hreadGold hopen hgoldOpen _ _ _ _ problem hproblem
      rw [Model.firstWords_of_unit hreadRaw (by simpa using hopen),
        Model.firstWords_of_unit hreadGold (by simpa using hgoldOpen)] at hfits
      obtain ⟨new, hnew⟩ := exists_exampleOf (List.forall₂_cons.1 hfits).1
      cases hproblem.symm.trans hnew
  | case8 =>
      rename_i hreadRaw goldUnit _ hreadGold hopen hgoldOpen _ _ _ _ new _ _ ih
      rw [Model.firstWords_of_unit hreadRaw (by simpa using hopen),
        Model.firstWords_of_unit hreadGold (by simpa using hgoldOpen)] at hfits
      obtain ⟨others, hothers⟩ := ih
        (fun h => hraw (h.of_suffix (Model.suffix_of_readUnit hreadRaw)))
        (fun h => hgold (h.of_suffix (Model.suffix_of_readUnit hreadGold)))
        (List.forall₂_cons.1 hfits).2
      exact ⟨_, map_eq_ok.2 ⟨others, hothers, rfl⟩⟩

lemma load_eq_ok {raw gold : Bytes} {corpus : Corpus} :
    load model raw gold = .ok corpus ↔
      ∃ sentences, loadFrom model 1 0 (.ofBytes raw) (.ofBytes gold) = .ok sentences ∧
        sentences.1 :: sentences.2 = corpus :=
  map_eq_ok

/-- **Two texts make a corpus just when the units of their first segments fit**, one by one.  The
examples of the corpus are then the raw units of that segment in their order, each with the target
that its gold unit asks for, and its sentences begin at the line breaks.

A text without separators has its first segment only, so that these are all units of the text. -/
theorem load_iff_fits (model : Model α) (raw gold : Text) :
    ((∃ corpus, load model raw.utf8 gold.utf8 = .ok corpus) ↔
      List.Forall₂ Fits (model.firstWords (.ofText raw)) (model.firstWords (.ofText gold))) ∧
    (∀ corpus, load model raw.utf8 gold.utf8 = .ok corpus →
      corpus.flatten.map Example.unit = model.firstWords (.ofText raw) ∧
      List.Forall₂ Picks corpus.flatten (model.firstWords (.ofText gold)) ∧
      corpus.SplitAtBreaks) ∧
    ∀ text, Input.segmentSeparator ∉ text →
      model.allWords (.ofText text) = model.firstWords (.ofText text) := by
  have hitems : ∀ text : Text, Input.ofBytes text.utf8 = .ofText text := Utf8.items_utf8
  have hloaded : ∀ corpus, load model raw.utf8 gold.utf8 = .ok corpus →
      corpus.flatten.map Example.unit = model.firstWords (.ofText raw) ∧
      List.Forall₂ (fun ex gold => Fits ex.unit gold ∧ Picks ex gold) corpus.flatten
        (model.firstWords (.ofText gold)) ∧
      corpus.SplitAtBreaks := by
    intro corpus hload
    obtain ⟨sentences, hsentences, rfl⟩ := load_eq_ok.1 hload
    rw [hitems, hitems] at hsentences
    simpa using spec_of_loadFrom hsentences
  refine ⟨⟨?_, ?_⟩, ?_, fun text => Model.allWords_of_no_separator⟩
  · rintro ⟨corpus, hload⟩
    obtain ⟨hunits, hpairs, -⟩ := hloaded corpus hload
    rw [← hunits, List.forall₂_map_left_iff]
    exact hpairs.imp fun ex gold h => h.1
  · intro hfits
    obtain ⟨sentences, hsentences⟩ := exists_loadFrom (Input.not_broken_ofText raw)
      (Input.not_broken_ofText gold) hfits
    rw [← hitems, ← hitems] at hsentences
    exact ⟨_, load_eq_ok.2 ⟨sentences, hsentences, rfl⟩⟩
  · intro corpus hload
    obtain ⟨hunits, hpairs, hsplit⟩ := hloaded corpus hload
    exact ⟨hunits, hpairs.imp fun ex gold h => h.2, hsplit⟩

/-- Two lines of one unit each.  The second raw unit has one target, and its gold unit may say what
it likes. -/
theorem load_iff_fits_two_lines :
    let model : Model Int := {}
    let raw : Text := "^x/b/a$\n^y/y$".toList
    let gold : Text := "^x/a$\n^y/z$".toList
    let first : LexicalUnit :=
      ⟨[], some ⟨[.plain 'x'], [0]⟩, [⟨[.plain 'b'], [0]⟩, ⟨[.plain 'a'], [0]⟩]⟩
    let second : LexicalUnit := ⟨['\n'], some ⟨[.plain 'y'], [0]⟩, [⟨[.plain 'y'], [0]⟩]⟩
    load model raw.utf8 gold.utf8 = .ok [[⟨first, 1⟩], [⟨second, 0⟩]] ∧
      List.Forall₂ Fits (model.allWords (.ofText raw)) (model.allWords (.ofText gold)) ∧
      [first, second] = model.allWords (.ofText raw) := by
  intro model raw gold first second
  have hload : load model raw.utf8 gold.utf8 = .ok [[⟨first, 1⟩], [⟨second, 0⟩]] := by
    decide +kernel
  obtain ⟨hfits, hloaded, hwhole⟩ := load_iff_fits model raw gold
  have hraw := hwhole raw (by decide)
  have hgold := hwhole gold (by decide)
  refine ⟨hload, ?_, ?_⟩
  · rw [hraw, hgold]
    exact hfits.1 ⟨_, hload⟩
  · rw [hraw]
    exact (hloaded _ hload).1

/-- **A segment behind a separator is left out.**  Two raw segments of one unit each fit two gold
segments, and the corpus has the first unit only; and it is the same one with a gold stream that
ends behind its first unit. -/
theorem load_skips_segments :
    let model : Model Int := {}
    let raw : Text := "^x/b/a$\x00^x/b/a$".toList
    let gold : Text := "^x/a$\x00^x/a$".toList
    let shortGold : Text := "^x/a$".toList
    let unit : LexicalUnit :=
      ⟨[], some ⟨[.plain 'x'], [0]⟩, [⟨[.plain 'b'], [0]⟩, ⟨[.plain 'a'], [0]⟩]⟩
    List.Forall₂ Fits (model.allWords (.ofText raw)) (model.allWords (.ofText gold)) ∧
      load model raw.utf8 gold.utf8 = .ok [[⟨unit, 1⟩]] ∧
      model.allWords (.ofText raw) = [unit, unit] ∧
      load model raw.utf8 shortGold.utf8 = .ok [[⟨unit, 1⟩]] ∧
      ¬List.Forall₂ Fits (model.allWords (.ofText raw)) (model.allWords (.ofText shortGold)) := by
  intro model raw gold shortGold unit
  let goldUnit : LexicalUnit := ⟨[], some ⟨[.plain 'x'], [0]⟩, [⟨[.plain 'a'], [0]⟩]⟩
  have hfits : Fits unit goldUnit := ⟨rfl, by decide, fun _ => ⟨_, rfl, by decide⟩⟩
  have hraw : model.allWords (.ofText raw) = [unit, unit] := by decide +kernel
  have hgold : model.allWords (.ofText gold) = [goldUnit, goldUnit] := by decide +kernel
  have hshort : model.allWords (.ofText shortGold) = [goldUnit] := by decide +kernel
  refine ⟨?_, by decide +kernel, hraw, by decide +kernel, ?_⟩
  · rw [hraw, hgold]
    exact .cons hfits (.cons hfits .nil)
  · rw [hraw, hshort]
    intro h
    cases h.length_eq

end Corpus

end LexicalSelection
