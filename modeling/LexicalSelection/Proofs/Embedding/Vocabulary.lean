import LexicalSelection.Embedding.Vocabulary
import LexicalSelection.Proofs.Order.Ascending
import Mathlib.Algebra.BigOperators.Group.List.Lemmas
import Mathlib.Data.List.Dedup

/-!
# What has a number in a vocabulary

A vocabulary of forms numbers those that are not empty and not rare, the frequent ones first.

* `Word.Among`, `Word.Before` — the word for a form, and which of two words has the smaller number.
* `Vocabulary.Ranks` — a vocabulary has all words that are not rare, in order, and counts the other
  forms as unknown.
* **`Vocabulary.ranks_trim`** — the trimmed vocabulary of some forms does.
* `Vocabulary.Ranks.form?_eq_some_iff` — numbers and forms belong together one to one.
* `Vocabulary.Ranks.count_lt_or`, `Vocabulary.Ranks.count_map_idOf` — the order of the numbers, and
  how often each of them occurs.
-/

namespace LexicalSelection.Embedding

open Std

instance : TransOrd Word :=
  inferInstanceAs
    (TransCmp (compareLex (fun a b => compareOn Word.count b a) (compareOn Word.first)))

namespace Word

/-- Among some forms the word stands for one that is not empty. -/
structure Among (forms : List Text) (word : Word) : Prop where
  /-- Its form is not empty. -/
  form_ne_nil : word.form ≠ []
  /-- Its form occurs. -/
  mem : word.form ∈ forms
  /-- It knows how often. -/
  count_eq : word.count = forms.count word.form
  /-- It knows where first. -/
  first_eq : word.first = forms.idxOf word.form

/-- The one word occurs more often than the other, or as often and earlier. -/
def Before (a b : Word) : Prop := b.count < a.count ∨ a.count = b.count ∧ a.first < b.first

lemma compare_eq (a b : Word) :
    compare a b = (compare b.count a.count).then (compare a.first b.first) := rfl

lemma compare_eq_lt {a b : Word} : compare a b = .lt ↔ a.Before b := by
  simp only [compare_eq, Ordering.then_eq_lt, Nat.compare_eq_lt, Nat.compare_eq_eq, Before]
  omega

variable {forms : List Text} {a b : Word}

lemma Among.ext (ha : a.Among forms) (hb : b.Among forms) (h : a.form = b.form) : a = b := by
  obtain ⟨form, count, first⟩ := a
  obtain ⟨form', count', first'⟩ := b
  obtain rfl : form = form' := h
  obtain rfl := ha.count_eq.trans hb.count_eq.symm
  obtain rfl := ha.first_eq.trans hb.first_eq.symm
  rfl

/-- Different words do not compare equal, since they occur first at different places. -/
lemma Among.eq_of_compare_eq (ha : a.Among forms) (hb : b.Among forms) (h : compare a b = .eq) :
    a = b := by
  have hfirst : a.first = b.first := by
    rw [compare_eq, Ordering.then_eq_eq] at h
    exact Nat.compare_eq_eq.1 h.2
  refine ha.ext hb ((List.idxOf_inj ha.mem).1 ?_)
  rw [← ha.first_eq, ← hb.first_eq, hfirst]

end Word

/-! ## Words of a row of forms -/

lemma occurrences_eq_sum (words : List Word) : occurrences words = (words.map Word.count).sum := by
  induction words with
  | nil => rfl
  | cons word words ih => rw [List.map_cons, List.sum_cons, ← ih]; rfl

lemma nodup_eraseDups {α : Type} [BEq α] [LawfulBEq α] (xs : List α) : xs.eraseDups.Nodup := by
  match xs with
  | [] => simp
  | x :: xs =>
      rw [List.eraseDups_cons, List.nodup_cons]
      exact ⟨by simp, nodup_eraseDups _⟩
termination_by xs.length
decreasing_by exact Nat.lt_succ_of_le (List.length_filter_le _ xs)

/-- The different members in order of their first occurrence are, up to their order, the different
members in order of their last occurrence. -/
lemma eraseDups_perm_dedup {α : Type} [DecidableEq α] [BEq α] [LawfulBEq α] (xs : List α) :
    xs.eraseDups.Perm xs.dedup :=
  (List.perm_ext_iff_of_nodup (nodup_eraseDups xs) (List.nodup_dedup xs)).2 (by simp)

namespace Vocabulary

variable {minCount : Nat} {forms : List Text} {vocabulary : Vocabulary} {id : Nat} {form : Text}

lemma mem_words_ofForms {word : Word} : word ∈ (ofForms forms).words ↔ word.Among forms := by
  simp only [ofForms, List.mem_map, List.mem_eraseDups, List.mem_filter, decide_eq_true_eq]
  constructor
  · rintro ⟨form, ⟨hmem, hne⟩, rfl⟩
    exact ⟨hne, hmem, rfl, rfl⟩
  · intro h
    refine ⟨word.form, ⟨h.mem, h.form_ne_nil⟩, ?_⟩
    rw [← h.count_eq, ← h.first_eq]

/-- The rare words of some forms occur as often as the forms that are rare and not empty. -/
lemma occurrences_rare (minCount : Nat) (forms : List Text) :
    occurrences ((ofForms forms).words.filter (·.count < minCount)) =
      (forms.filter (· ≠ [])).countP fun form => forms.count form < minCount := by
  rw [occurrences_eq_sum, ofForms, List.filter_map, List.map_map]
  refine (((eraseDups_perm_dedup _).filter _).map _).sum_eq.trans ?_
  rw [← List.sum_map_count_dedup_filter_eq_countP]
  refine congrArg List.sum (List.map_congr_left fun form hform => ?_)
  have hne : decide (form ≠ []) = true :=
    (List.mem_filter.1 (List.mem_dedup.1 (List.mem_of_mem_filter hform))).2
  have hcount : (forms.filter (· ≠ [])).count form = forms.count form := List.count_filter hne
  -- the two counts compare forms by different tests, both of them lawful
  exact hcount.symm.trans (List.countP_congr fun _ _ => by simp)

/-! ## Ranks -/

/-- The vocabulary has the words among some forms that are not rare, in order, and counts all other
forms as unknown. -/
structure Ranks (minCount : Nat) (forms : List Text) (vocabulary : Vocabulary) : Prop where
  /-- The words are those that are not rare. -/
  mem_words : ∀ word, word ∈ vocabulary.words ↔ word.Among forms ∧ minCount ≤ word.count
  /-- The words stand in order. -/
  ordered : vocabulary.words.Pairwise Word.Before
  /-- All other forms are unknown. -/
  unknown_eq : vocabulary.unknown = forms.countP fun form => form = [] ∨ forms.count form < minCount

/-- **Trimming leaves the words that are not rare, in order.** -/
lemma ranks_trim (minCount : Nat) (forms : List Text) :
    ((ofForms forms).trim minCount).Ranks minCount forms where
  mem_words word := by
    have hdistinct : ∀ a ∈ (ofForms forms).words.filter (minCount ≤ ·.count),
        ∀ b ∈ (ofForms forms).words.filter (minCount ≤ ·.count), compare a b = .eq → a = b :=
      fun a ha b hb => (mem_words_ofForms.1 (List.mem_of_mem_filter ha)).eq_of_compare_eq
        (mem_words_ofForms.1 (List.mem_of_mem_filter hb))
    rw [trim, Ascending.mem_ofList_of_distinct hdistinct, List.mem_filter, mem_words_ofForms,
      decide_eq_true_eq]
  ordered := (Ascending.strict_ofList _).imp Word.compare_eq_lt.1
  unknown_eq := by
    have hempty : forms.count [] = (forms.filter (· = [])).countP
        fun form => form = [] ∨ forms.count form < minCount := by
      rw [List.countP_filter, List.count_eq_countP]
      exact List.countP_congr fun form _ => by simpa using Or.inl
    have hrare : ((forms.filter (· ≠ [])).countP fun form => forms.count form < minCount) =
        (forms.filter (· ≠ [])).countP fun form => form = [] ∨ forms.count form < minCount := by
      refine List.countP_congr fun form hform => ?_
      simp [show form ≠ [] by simpa using (List.mem_filter.1 hform).2]
    rw [trim, occurrences_rare, ofForms, hempty, hrare,
      List.countP_eq_countP_filter_add forms _ (· = [])]
    simp

namespace Ranks

variable (h : vocabulary.Ranks minCount forms)
include h

lemma nodup_forms : (vocabulary.words.map Word.form).Nodup := by
  have hnodup : vocabulary.words.Nodup := h.ordered.imp fun {a b} hbefore heq => by
    subst heq
    unfold Word.Before at hbefore
    omega
  exact List.Nodup.map_on (fun a ha b hb =>
    ((h.mem_words a).1 ha).1.ext ((h.mem_words b).1 hb).1) hnodup

lemma mem_forms : form ∈ vocabulary.words.map Word.form ↔
    form ≠ [] ∧ form ∈ forms ∧ minCount ≤ forms.count form := by
  simp only [List.mem_map, h.mem_words]
  constructor
  · rintro ⟨word, ⟨hword, hcount⟩, rfl⟩
    exact ⟨hword.form_ne_nil, hword.mem, hword.count_eq ▸ hcount⟩
  · rintro ⟨hne, hmem, hcount⟩
    exact ⟨⟨form, forms.count form, forms.idxOf form⟩, ⟨⟨hne, hmem, rfl, rfl⟩, hcount⟩, rfl⟩

/-- **Numbers and forms belong together one to one.** -/
lemma form?_eq_some_iff : vocabulary.form? id = some form ↔ vocabulary.id? form = some id := by
  have hempty : [] ∉ vocabulary.words.map Word.form := fun hmem => (h.mem_forms.1 hmem).1 rfl
  cases id with
  | zero => by_cases hform : form = [] <;> simp [form?, id?, hform, eq_comm]
  | succ index =>
      rw [form?, ← List.getElem?_map, List.getElem?_eq_some_iff]
      by_cases hform : form = []
      · subst hform
        exact iff_of_false (fun ⟨_, heq⟩ => hempty (heq ▸ List.getElem_mem _)) (by simp [id?])
      · simp only [id?, if_neg hform, Option.map_eq_some_iff, Nat.add_right_cancel_iff,
          exists_eq_right, List.idxOf?_eq_some_iff]
        refine exists_congr fun hindex => ⟨fun heq => ⟨heq, fun j hj heq' => ?_⟩, And.left⟩
        have hsame : j = index := h.nodup_forms.getElem_inj_iff.1 (heq'.trans heq.symm)
        omega

/-- The forms without a number. -/
lemma id?_eq_none_iff : vocabulary.id? form = none ↔
    form ≠ [] ∧ (form ∉ forms ∨ forms.count form < minCount) := by
  by_cases hform : form = []
  · simp [id?, hform]
  · rw [id?, if_neg hform, Option.map_eq_none_iff, List.idxOf?_eq_none_iff, h.mem_forms]
    simp [hform, imp_iff_not_or]

/-- The forms with a number. -/
lemma exists_id?_eq_some_iff : (∃ id, vocabulary.id? form = some id) ↔
    form = [] ∨ form ∈ forms ∧ minCount ≤ forms.count form := by
  rw [← Option.ne_none_iff_exists', Ne, h.id?_eq_none_iff]
  by_cases hform : form = []
  · simp [hform]
  · simp [hform]

lemma idOf_eq_iff (hid : id ≠ 0) : vocabulary.idOf form = id ↔ vocabulary.form? id = some form := by
  rw [h.form?_eq_some_iff, idOf]
  cases vocabulary.id? form with
  | none => simpa using hid.symm
  | some found => simp

/-- The forms that the number 0 stands for. -/
lemma idOf_eq_zero_iff (hmem : form ∈ forms) :
    vocabulary.idOf form = 0 ↔ form = [] ∨ forms.count form < minCount := by
  by_cases hform : form = []
  · simp [idOf, id?, hform]
  · cases hid : vocabulary.id? form with
    | none => simpa [idOf, hid, hform, hmem] using h.id?_eq_none_iff.1 hid
    | some id =>
        have hne : id ≠ 0 := by
          rintro rfl
          exact hform (by simpa [form?, eq_comm] using h.form?_eq_some_iff.2 hid)
        have hsome : ¬ vocabulary.id? form = none := by simp [hid]
        rw [h.id?_eq_none_iff] at hsome
        simp only [idOf, hid, Option.getD_some, hne, false_iff]
        tauto

/-- **Smaller numbers stand for forms that occur more often**, or as often and earlier. -/
lemma count_lt_or {id' : Nat} {form' : Text} (hid : id ≠ 0) (hlt : id < id')
    (hform : vocabulary.form? id = some form) (hform' : vocabulary.form? id' = some form') :
    vocabulary.count id' < vocabulary.count id ∨
      vocabulary.count id = vocabulary.count id' ∧ forms.idxOf form < forms.idxOf form' := by
  obtain ⟨index, rfl⟩ := Nat.exists_eq_succ_of_ne_zero hid
  obtain ⟨index', rfl⟩ := Nat.exists_eq_succ_of_ne_zero (Nat.ne_zero_of_lt hlt)
  obtain ⟨word, hword, rfl⟩ := Option.map_eq_some_iff.1 hform
  obtain ⟨word', hword', rfl⟩ := Option.map_eq_some_iff.1 hform'
  have hfirst := ((h.mem_words word).1 (List.mem_of_getElem? hword)).1.first_eq
  have hfirst' := ((h.mem_words word').1 (List.mem_of_getElem? hword')).1.first_eq
  obtain ⟨hindex, rfl⟩ := List.getElem?_eq_some_iff.1 hword
  obtain ⟨hindex', rfl⟩ := List.getElem?_eq_some_iff.1 hword'
  have hbefore := List.pairwise_iff_getElem.1 h.ordered index index' hindex hindex' (by omega)
  rwa [count, count, hword, hword', ← hfirst, ← hfirst']

/-- **A number occurs as often as its count says.** -/
lemma count_map_idOf (id : Nat) : (forms.map vocabulary.idOf).count id = vocabulary.count id := by
  rw [List.count_eq_countP, List.countP_map]
  cases id with
  | zero =>
      rw [count, h.unknown_eq]
      exact List.countP_congr fun form hmem => by simpa using h.idOf_eq_zero_iff hmem
  | succ index =>
      have hid (form : Text) : vocabulary.idOf form = index + 1 ↔
          vocabulary.words[index]?.map Word.form = some form :=
        h.idOf_eq_iff (Nat.succ_ne_zero index)
      rw [count]
      cases hword : vocabulary.words[index]? with
      | none => exact List.countP_eq_zero.2 fun form _ => by simp [hid, hword]
      | some word =>
          have hamong := ((h.mem_words word).1 (List.mem_of_getElem? hword)).1
          rw [Option.map_some, Option.getD_some, hamong.count_eq, List.count_eq_countP]
          exact List.countP_congr fun form _ => by simpa [hid, hword] using eq_comm

end Ranks

end Vocabulary

end LexicalSelection.Embedding
