import LexicalSelection.Proofs.Embedding.LiteralPattern
import LexicalSelection.Proofs.Embedding.Numbering
import LexicalSelection.Proofs.Model.RuleText

/-!
# Vocabularies read as rules

The rule lines of a vocabulary give a model with a feature for each word, and the feature is found
in the readings of that word.

* `Vocabulary.features` — the features for the words of a vocabulary.
* `Vocabulary.ofRuleBytes_fragment` — the lines give just these features.
* **`NumberedCorpus.features_of_rulesText`** — which readings have the features of the words of a
  corpus.
* `NumberedCorpus.feature_lost` — a tag with a star in it is not found again.
-/

namespace LexicalSelection.Embedding

open LexicalUnit (Located Placement)

/-! ## Lines -/

/-- The components of a vector as words. -/
def componentWords (vector : Components) : List Text :=
  vector.map fun x => (Binary64.ofFloat x).fixedText 6

/-- A line with a vector as a command with words. -/
lemma vectorLine_eq (name : Text) (vector : Components) :
    vectorLine name vector = Rule.line 'V' (name :: componentWords vector) ++ ['\n'] := by
  rw [vectorLine, componentsText, Rule.line, componentWords, List.flatMap_cons, List.flatMap_map]
  simp

/-- Lines with vectors carry no rule. -/
lemma applyLine_vector (model : Model Binary64) (words : List Text) :
    model.applyLine (Rule.line 'V' words) = model := by
  rw [Model.applyLine, Rule.ofLine, Rule.line, Text.trimStart,
    List.dropWhile_cons_of_neg (by decide)]
  rfl

lemma plain_featureName (id : Nat) : Rule.Plain (featureName id) :=
  (Rule.plain_ofNat id).cons (by decide)

lemma featureName_injective : Function.Injective featureName := by
  intro id id' h
  have hvalue : ∀ n, Decimal.digitsValue (Text.ofNat n) = n :=
    fun _ => Nat.ofDigitChars_ten_toDigits
  rw [← hvalue id, ← hvalue id', (List.cons.inj h).2]

lemma oneLine_vector {name : Text} (hname : Rule.Plain name) (vector : Components) :
    Text.OneLine (Rule.line 'V' (name :: componentWords vector)) := by
  have hwords : ∀ word ∈ name :: componentWords vector, Rule.Plain word := by
    refine List.forall_mem_cons.2 ⟨hname, fun word hword => ?_⟩
    obtain ⟨x, -, rfl⟩ := List.mem_map.1 hword
    exact Rule.plain_fixedText 6 _
  have hlast := hwords _ (List.getLast_mem (List.cons_ne_nil name _))
  rw [← List.dropLast_append_getLast (List.cons_ne_nil name _)]
  exact Rule.oneLine_line (by decide)
    (fun word hword => (hwords word (List.mem_of_mem_dropLast hword)).oneLine.newline)
    hlast.oneLine hlast.ne_nil

namespace Vocabulary

/-- The feature for a word with its number. -/
def wordFeature (entry : Word × Nat) : Feature :=
  ⟨featureName entry.2, [literalPattern entry.1.form]⟩

/-- The features for the words of a vocabulary, in the order of their numbers. -/
def features (vocabulary : Vocabulary) : List Feature :=
  (vocabulary.words.zipIdx 1).map wordFeature

/-- A form that can stand in a rule. -/
structure Writable (form : Text) : Prop where
  ne_nil : form ≠ []
  paired : Paired form
  oneLine : Text.OneLine form

variable {vocabulary : Vocabulary} {form : Text} {id : Nat}

/-- The rule for a word is read back. -/
lemma Writable.clear (h : Writable form) (id : Nat) :
    (Rule.pattern (featureName id) [literalPattern form]).Clear := by
  have hname := plain_featureName id
  have hone := oneLine_literalPattern h.oneLine
  have hne : literalPattern form ≠ [] := by
    intro hnil
    have hlast := getLast?_literalPattern form
    rw [hnil] at hlast
    exact h.ne_nil (List.getLast?_eq_none_iff.1 hlast.symm)
  exact ⟨_, rfl, ⟨hname.whole, hname.ne_nil, hname.oneLine.newline,
    ⟨hne, Or.inl (whole_literalPattern h.paired)⟩, hone.newline⟩, hone.return_ne⟩

/-- The lines for a word. -/
def entryLines (vectorOf : Nat → Components) (entry : Word × Nat) : List Text :=
  [(Rule.pattern (featureName entry.2) [literalPattern entry.1.form]).text,
    Rule.line 'V' (featureName entry.2 :: componentWords (vectorOf entry.2))]

/-- The lines for a vocabulary. -/
def fragmentLines (vectorOf : Nat → Components) (vocabulary : Vocabulary) : List Text :=
  Rule.line 'V' (['U', 'N', 'K'] :: componentWords (vectorOf 0))
    :: (vocabulary.words.zipIdx 1).flatMap (entryLines vectorOf)

lemma rulesText_eq (vectorOf : Nat → Components) (vocabulary : Vocabulary) :
    vocabulary.rulesText vectorOf
      = (fragmentLines vectorOf vocabulary).flatMap fun line => line ++ ['\n'] := by
  have hword : ∀ entry : Word × Nat, wordLines entry.2 entry.1.form (vectorOf entry.2)
      = (entryLines vectorOf entry).flatMap fun line => line ++ ['\n'] := by
    intro entry
    rw [wordLines, vectorLine_eq, entryLines]
    simp [Rule.text, Rule.line]
  rw [rulesText, vectorLine_eq, fragmentLines, List.flatMap_cons, List.flatMap_assoc]
  exact congrArg _ (congrArg (List.flatMap · _) (funext hword))

lemma oneLine_fragmentLines {vectorOf : Nat → Components} {line : Text}
    (h : ∀ word ∈ vocabulary.words, Writable word.form)
    (hline : line ∈ fragmentLines vectorOf vocabulary) : Text.OneLine line := by
  rcases List.mem_cons.1 hline with rfl | hline
  · exact oneLine_vector
      (((Rule.plain_singleton (by decide)).cons (by decide)).cons (by decide)) _
  · obtain ⟨⟨word, id⟩, hentry, hline⟩ := List.mem_flatMap.1 hline
    have hword : word ∈ vocabulary.words := List.fst_mem_of_mem_zipIdx hentry
    rcases List.mem_cons.1 hline with rfl | hline
    · exact Rule.oneLine_text ((h word hword).clear id)
    · rw [List.mem_singleton.1 hline]
      exact oneLine_vector (plain_featureName id) _

/-! ## The model -/

/-- The lines for words declare their features one after the other. -/
lemma foldl_applyLine_entryLines {vectorOf : Nat → Components} {entries : List (Word × Nat)}
    (h : ∀ entry ∈ entries, Writable entry.1.form) (base : Model Binary64) :
    (entries.flatMap (entryLines vectorOf)).foldl Model.applyLine base
      = ((entries.map wordFeature).flatMap Model.patternRules).foldl Model.follow base := by
  induction entries generalizing base with
  | nil => rfl
  | cons entry entries ih =>
      obtain ⟨hentry, hentries⟩ := List.forall_mem_cons.1 h
      rw [List.flatMap_cons, List.foldl_append, entryLines, List.foldl_cons, List.foldl_cons,
        List.foldl_nil, applyLine_vector, Model.applyLine_text (hentry.clear entry.2), ih hentries]
      rfl

lemma names_nodup (vocabulary : Vocabulary) :
    ((⟨[], []⟩ :: vocabulary.features).map Feature.name).Nodup := by
  have hnames : vocabulary.features.map Feature.name
      = (List.range' 1 vocabulary.words.length).map featureName := by
    rw [features, List.map_map, ← List.zipIdx_map_snd, List.map_map]
    rfl
  rw [List.map_cons, List.nodup_cons, hnames]
  refine ⟨fun hmem => ?_, List.Nodup.map featureName_injective List.nodup_range'⟩
  obtain ⟨id, -, hid⟩ := List.mem_map.1 hmem
  exact (plain_featureName id).ne_nil hid

/-- **The lines of a vocabulary give the features of its words and nothing else.** -/
lemma ofRuleBytes_fragment (vectorOf : Nat → Components)
    (h : ∀ word ∈ vocabulary.words, Writable word.form) :
    Model.ofRuleBytes (vocabulary.rulesText vectorOf).utf8
      = .ok ({ features := ⟨[], []⟩ :: vocabulary.features } : Model Binary64).rebuildMatcher := by
  have hlines : (vocabulary.rulesText vectorOf).lines = fragmentLines vectorOf vocabulary := by
    rw [rulesText_eq, Text.lines_flatMap fun line hline => oneLine_fragmentLines h hline]
  have hentries : ∀ entry ∈ vocabulary.words.zipIdx 1, Writable entry.1.form := fun _ hentry =>
    h _ (List.fst_mem_of_mem_zipIdx hentry)
  have hpatterns : vocabulary.features.filter (·.patterns ≠ []) = vocabulary.features := by
    refine List.filter_eq_self.2 fun feature hfeature => ?_
    obtain ⟨entry, -, rfl⟩ := List.mem_map.1 hfeature
    rfl
  have hfollow : (vocabulary.features.flatMap Model.patternRules).foldl Model.follow {}
      = { features := ⟨[], []⟩ :: vocabulary.features } := by
    refine (Model.foldl_follow_features (names_nodup vocabulary)).trans ?_
    rw [hpatterns]
    rfl
  rw [Model.ofRuleBytes, Utf8.decode?_utf8]
  simp only
  rw [Model.ofRules, hlines, fragmentLines, List.foldl_cons, applyLine_vector,
    foldl_applyLine_entryLines hentries]
  exact congrArg (fun model : Model Binary64 => Except.ok model.rebuildMatcher) hfollow

end Vocabulary

/-- A feature with one pattern is found where the pattern matches. -/
lemma mem_features_iff {model : Model Binary64} {id : Nat} {name pattern : Text} {side : Side}
    {reading : Reading} (hmatcher : model.matcher = .compile model.patterns)
    (hfeature : model.features[id]? = some ⟨name, [pattern]⟩)
    (hnumbered : reading.Numbered model.matcher.alphabet.tagNumber?) :
    id ∈ model.matcher.features side reading ↔ Pattern.Matches pattern side reading.tokens := by
  rw [hmatcher] at hnumbered ⊢
  refine (Matcher.mem_features_compile hnumbered).trans ?_
  simp only [Model.mem_patterns, hfeature, Option.some.injEq]
  constructor
  · rintro ⟨_, ⟨_, rfl, hpattern⟩, hmatches⟩
    exact List.mem_singleton.1 hpattern ▸ hmatches
  · exact fun hmatches => ⟨pattern, ⟨_, rfl, List.mem_singleton_self pattern⟩, hmatches⟩

/-! ## The words of a corpus -/

/-- The source reading of a closed unit is found in its form, and has closed pieces only. -/
lemma exists_closed_source {tags : TagNumbers} {text tail : Text} {places : List Placement}
    {place : Placement} (h : Located tags [] text places tail) (hplace : place ∈ places)
    (hclosed : place.closed = true) : ∃ source, sourceForm place.unit = source.form ∧
      (∀ piece ∈ source.pieces, piece.Closed) ∧ Reading.parse tags source.form = source := by
  obtain ⟨hopen, behind, hread⟩ := h.read_of_mem hplace
  rw [hclosed] at hread
  obtain ⟨source, hsource⟩ := LexicalUnit.exists_source hopen
  have hdelimited := (LexicalUnit.delimited_of_read hread hopen
    (LexicalUnit.not_cutOff_of_closed hopen hread)).source source hsource
  have hagain := hdelimited Input.unitClose [] (by decide)
  obtain ⟨pieces, hpieces, rfl⟩ := Input.map_eq_ok.1 hagain
  refine ⟨_, ?_, Reading.closed_of_readPieces hpieces (List.cons_ne_nil _ _),
    Reading.parse_form hagain⟩
  rw [sourceForm, hsource]
  rfl

namespace NumberedCorpus

variable {minCount : Nat} {text tail : Text} {places : List Placement}

/-- Each word of a corpus of closed units is the form of such a reading. -/
lemma exists_reading_of_mem_words {word : Word} (h : Located (fun _ => none) [] text places tail)
    (hclosed : ∀ place ∈ places, place.closed = true)
    (hword : word ∈ (read minCount text.utf8).1.vocabulary.words) :
    word.form ≠ [] ∧ ∃ source : Reading, word.form = source.form ∧
      (∀ piece ∈ source.pieces, piece.Closed) ∧
      Reading.parse (fun _ => none) source.form = source := by
  rw [read_of_located h] at hword
  have hamong := (((Vocabulary.ranks_trim minCount _).mem_words word).1 hword).1
  obtain ⟨unit, hunit, hform⟩ := List.mem_map.1 hamong.mem
  obtain ⟨place, hplace, rfl⟩ := List.mem_map.1 hunit
  rw [← hform]
  exact ⟨hform ▸ hamong.form_ne_nil, exists_closed_source h hplace (hclosed place hplace)⟩

/-- **Which readings have the features of the words of a corpus.**  When all units are closed and no
word is broken by a line, the lines for the vocabulary are read as one feature for each number, in
the order of the numbers and with one pattern each.  Where the tags of a word are plain, its feature
is found in just those readings, on either side, that have the same characters and tags as the
reading of its form.  Where they are not, it is not even found in that reading. -/
theorem features_of_rulesText (vectorOf : Nat → Components)
    (h : Located (fun _ => none) [] text places tail)
    (hclosed : ∀ place ∈ places, place.closed = true)
    (hline : ∀ word ∈ (read minCount text.utf8).1.vocabulary.words, Text.OneLine word.form) :
    let vocabulary := (read minCount text.utf8).1.vocabulary
    ∃ model, Model.ofRuleBytes (vocabulary.rulesText vectorOf).utf8 = .ok model ∧
      model.features = ⟨[], []⟩ :: vocabulary.features ∧
      ∀ id form, id ≠ 0 → vocabulary.form? id = some form →
        let reading := Reading.parse model.matcher.alphabet.tagNumber? form
        ((∀ tag, .tag tag ∈ reading.tokens → PlainTag tag) → ∀ side other,
          other.Numbered model.matcher.alphabet.tagNumber? →
            (id ∈ model.matcher.features side other ↔ other.tokens = reading.tokens)) ∧
        ∀ tag, .tag tag ∈ reading.tokens → ¬PlainTag tag →
          ∀ side, id ∉ model.matcher.features side reading := by
  intro vocabulary
  have hwritable : ∀ word ∈ vocabulary.words, Vocabulary.Writable word.form := by
    intro word hword
    obtain ⟨hne, source, hform, hpieces, -⟩ := exists_reading_of_mem_words h hclosed hword
    exact ⟨hne, hform ▸ paired_flatMap_text hpieces, hline word hword⟩
  refine ⟨_, Vocabulary.ofRuleBytes_fragment vectorOf hwritable, rfl, fun id form hid hform => ?_⟩
  obtain ⟨index, rfl⟩ := Nat.exists_eq_succ_of_ne_zero hid
  obtain ⟨word, hword, rfl⟩ := Option.map_eq_some_iff.1 hform
  obtain ⟨-, source, hsource, hpieces, hparse⟩ :=
    exists_reading_of_mem_words h hclosed (List.mem_of_getElem? hword)
  intro reading
  have hreading : reading.tokens = source.tokens := by
    rw [Reading.tokens_parse _ (fun _ => none), hsource, hparse]
  have hfeature : vocabulary.features[index]?
      = some ⟨featureName (index + 1), [literalPattern source.form]⟩ := by
    rw [Vocabulary.features, List.getElem?_map, List.getElem?_zipIdx, hword, ← hsource,
      Nat.add_comm]
    rfl
  rw [hreading]
  refine ⟨fun hplain side other hother => ?_, fun tag htag hplain side => ?_⟩
  · exact (mem_features_iff rfl hfeature hother).trans (matches_literalPattern hpieces hplain)
  · rw [mem_features_iff rfl hfeature (Reading.numbered_parse _ _), hreading]
    exact not_matches_literalPattern hpieces htag hplain

/-- A word with a star and a space outside of its tag: both get an escape, and the feature is found
in its readings. -/
theorem features_of_rulesText_star_and_space :
    let text : Text := "^a* b<n>/x$".toList
    let form : Text := "a* b<n>".toList
    let vocabulary := (read 1 text.utf8).1.vocabulary
    ∃ place, Located (fun _ => none) [] text [place] [] ∧ place.closed = true ∧
      (∀ word ∈ vocabulary.words, Text.OneLine word.form) ∧ vocabulary.form? 1 = some form ∧
      ∃ model, Model.ofRuleBytes (vocabulary.rulesText fun _ => []).utf8 = .ok model ∧
        model.features = [⟨[], []⟩, ⟨"F1".toList, ["a\\*\\ b<n>".toList]⟩] ∧
        ∀ side, 1 ∈ model.matcher.features side
          (Reading.parse model.matcher.alphabet.tagNumber? form) := by
  intro text form vocabulary
  let source : Reading :=
    ⟨[.plain 'a', .plain '*', .plain ' ', .plain 'b', .tag "<n>".toList none], []⟩
  have hvocabulary : vocabulary = ⟨0, [⟨form, 1, 0⟩]⟩ := by decide +kernel
  have hlocated : Located (fun _ => none) [] text
      [⟨[], ⟨[], some source, [⟨[.plain 'x'], []⟩]⟩, true⟩] [] :=
    @Located.unit _ [] [] [] ⟨[], some source, [⟨[.plain 'x'], []⟩]⟩ true _ (by decide +kernel) rfl
      (LexicalUnit.located_nil _)
  have hline : ∀ word ∈ vocabulary.words, Text.OneLine word.form := by
    rw [hvocabulary]
    exact List.forall_mem_singleton.2 ⟨by decide, by decide⟩
  have hform : vocabulary.form? 1 = some form := by
    rw [hvocabulary]
    rfl
  obtain ⟨model, hmodel, hfeatures, hids⟩ := features_of_rulesText (fun _ => []) hlocated
    (List.forall_mem_singleton.2 rfl) hline
  refine ⟨_, hlocated, rfl, hline, hform, model, hmodel, ?_, fun side => ?_⟩
  · rw [hfeatures]
    show _ :: vocabulary.features = _
    rw [hvocabulary]
    decide
  · have hplain : ∀ tag, .tag tag ∈ (Reading.parse model.matcher.alphabet.tagNumber? form).tokens →
        PlainTag tag := by
      have htokens : (Reading.parse (fun _ => none) form).tokens
          = [.char 'a', .char '*', .char ' ', .char 'b', .tag "<n>".toList] := by decide +kernel
      rw [Reading.tokens_parse _ (fun _ => none), htokens]
      intro tag htag
      obtain rfl : tag = "<n>".toList := by simpa using htag
      exact ⟨['n'], by decide⟩
    exact (((hids 1 form (by decide) hform).1 hplain side _ (Reading.numbered_parse _ _))).2 rfl

/-- A star in a tag gets an escape as well, which belongs to the tag then: the feature of the word
is not found in its own reading. -/
theorem feature_lost :
    let text : Text := "^<a*b>$".toList
    let form : Text := "<a*b>".toList
    let vocabulary := (read 1 text.utf8).1.vocabulary
    (∃ place, Located (fun _ => none) [] text [place] [] ∧ place.closed = true) ∧
      vocabulary.form? 1 = some form ∧
      (vocabulary.rulesText fun _ => []) = "V UNK\nP F1 <a\\*b>\nV F1\n".toList ∧
      ∃ model, Model.ofRuleBytes (vocabulary.rulesText fun _ => []).utf8 = .ok model ∧
        ∀ side, 1 ∉ model.matcher.features side
          (Reading.parse model.matcher.alphabet.tagNumber? form) := by
  intro text form vocabulary
  have hvocabulary : vocabulary = ⟨0, [⟨form, 1, 0⟩]⟩ := by decide +kernel
  have hrules : (vocabulary.rulesText fun _ => []) = "V UNK\nP F1 <a\\*b>\nV F1\n".toList := by
    rw [hvocabulary]
    decide +kernel
  have hlocated : Located (fun _ => none) [] text
      [⟨[], ⟨[], some ⟨[.tag form none], []⟩, []⟩, true⟩] [] :=
    @Located.unit _ [] [] [] ⟨[], some ⟨[.tag form none], []⟩, []⟩ true _ (by decide +kernel) rfl
      (LexicalUnit.located_nil _)
  refine ⟨⟨_, hlocated, rfl⟩, by rw [hvocabulary]; rfl, hrules,
    .ofRules "V UNK\nP F1 <a\\*b>\nV F1\n".toList, ?_, ?_⟩
  · rw [hrules, Model.ofRuleBytes, Utf8.decode?_utf8]
  · intro side
    cases side <;> decide +kernel

end NumberedCorpus

end LexicalSelection.Embedding
