import LexicalSelection.Proofs.Rule.Token

/-!
# Where the tokens of a text stand

White space that a backslash escapes belongs to a token, so whether a place divides a text can
depend on all characters before it.  It is said here of places alone, without looking at how tokens
are taken.

* `Escaped`, `Gap` — a place with an escaped character, and one with white space that is not
  escaped.
* `Divides` — the spans between the gaps of a text, in order.
* `exists_divides` — the tokens of a text stand in these spans.
* **`tokens_between_gaps`** — so tokens and gaps are all of the text; and the tokens are read back
  with any white space between them.
-/

namespace LexicalSelection.Rule

open Text (isWhite)

variable {text token front rest : Text} {place : Nat}

/-! ## Escaped characters -/

/-- Is the character at this place escaped?  It is when the one before it is a backslash that is not
escaped itself. -/
def Escaped (text : Text) : Nat → Prop
  | 0 => False
  | place + 1 => text[place]? = some '\\' ∧ ¬ Escaped text place

/-- Is there white space at this place that is not escaped? -/
def Gap (text : Text) (place : Nat) : Prop :=
  ∃ c, text[place]? = some c ∧ isWhite c = true ∧ ¬ Escaped text place

/-- What comes behind a place does not matter to it. -/
lemma escaped_append_left (h : place ≤ front.length) :
    Escaped (front ++ rest) place ↔ Escaped front place := by
  induction place with
  | zero => exact Iff.rfl
  | succ place ih =>
      rw [Escaped, Escaped, List.getElem?_append_left h, ih (Nat.le_of_succ_le h)]

/-- Behind a text that leaves no backslash over, escapes begin anew. -/
lemma escaped_append_right (h : ¬ Escaped front front.length) (rest : Text) (place : Nat) :
    Escaped (front ++ rest) (front.length + place) ↔ Escaped rest place := by
  induction place with
  | zero => exact iff_of_false (fun hend => h ((escaped_append_left (Nat.le_refl _)).1 hend)) id
  | succ place ih =>
      rw [← Nat.add_assoc, Escaped, Escaped, ih, List.getElem?_append_right (Nat.le_add_right _ _),
        Nat.add_sub_cancel_left]

/-- Whether there is a gap does not depend on what comes behind it. -/
lemma gap_append_left (h : place < front.length) : Gap (front ++ rest) place ↔ Gap front place := by
  simp only [Gap, List.getElem?_append_left h, escaped_append_left (Nat.le_of_lt h)]

/-- Behind a text that leaves no backslash over, gaps are where they were. -/
lemma gap_append_right (h : ¬ Escaped front front.length) (rest : Text) (place : Nat) :
    Gap (front ++ rest) (front.length + place) ↔ Gap rest place := by
  simp only [Gap, escaped_append_right h, List.getElem?_append_right (Nat.le_add_right _ _),
    Nat.add_sub_cancel_left]

/-- The end of a text is escaped when the end of its second part is. -/
lemma escaped_append_length (h : ¬ Escaped front front.length) (rest : Text) :
    Escaped (front ++ rest) (front ++ rest).length ↔ Escaped rest rest.length := by
  rw [List.length_append, escaped_append_right h]

/-- Two texts without gaps have none together. -/
lemma not_gap_append (h : ¬ Escaped front front.length) (hfront : ∀ place, ¬ Gap front place)
    (hrest : ∀ place, ¬ Gap rest place) (place : Nat) : ¬ Gap (front ++ rest) place := by
  rcases Nat.lt_or_ge place front.length with hlt | hge
  · rw [gap_append_left hlt]
    exact hfront place
  · obtain ⟨place, rfl⟩ := Nat.exists_eq_add_of_le hge
    rw [gap_append_right h]
    exact hrest place

/-! ## Texts without gaps -/

/-- An escaped character leaves no backslash over. -/
lemma not_escaped_pair (c : Char) : ¬ Escaped ['\\', c] ['\\', c].length := by simp [Escaped]

/-- An escaped character is no gap, whatever it is. -/
lemma not_gap_pair (c : Char) (place : Nat) : ¬ Gap ['\\', c] place := by
  rintro ⟨d, hd, hwhite, hescaped⟩
  rcases place with _ | _ | place
  · obtain rfl : '\\' = d := by simpa using hd
    revert hwhite
    decide
  · simp [Escaped] at hescaped
  · simp at hd

lemma not_escaped_singleton {c : Char} (h : c ≠ '\\') : ¬ Escaped [c] [c].length := by
  simp [Escaped, h]

lemma not_gap_singleton {c : Char} (h : isWhite c = false) (place : Nat) : ¬ Gap [c] place := by
  rintro ⟨d, hd, hwhite, -⟩
  rw [List.getElem?_singleton] at hd
  split at hd
  · rw [← Option.some.inj hd, h] at hwhite
    cases hwhite
  · cases hd

/-- A whole text leaves no backslash over. -/
lemma Whole.not_escaped (h : Whole text) : ¬ Escaped text text.length := by
  induction h with
  | nil => exact id
  | @escaped c rest _ ih =>
      exact fun hend => ih ((escaped_append_length (not_escaped_pair c) rest).1 hend)
  | @plain c rest hescape _ _ ih =>
      exact fun hend => ih ((escaped_append_length (not_escaped_singleton hescape) rest).1 hend)

/-- A whole text has no gap: all of its white space is escaped. -/
lemma Whole.not_gap (h : Whole text) : ∀ place, ¬ Gap text place := by
  induction h with
  | nil => exact fun place hgap => by simp [Gap] at hgap
  | @escaped c rest _ ih => exact not_gap_append (not_escaped_pair c) (not_gap_pair c) ih
  | @plain c rest hescape hwhite _ ih =>
      exact not_gap_append (not_escaped_singleton hescape) (not_gap_singleton hwhite) ih

/-- **A token has no gap**, and a backslash that it leaves over is none either. -/
lemma IsWord.not_gap (h : IsWord text) (place : Nat) : ¬ Gap text place := by
  rcases h.whole with hwhole | ⟨front, hfront, rfl⟩
  · exact hwhole.not_gap place
  · exact not_gap_append hfront.not_escaped hfront.not_gap (not_gap_singleton (by decide)) place

/-! ## Spans -/

/-- A stretch of places. -/
structure Span where
  /-- The first place. -/
  first : Nat
  /-- The place behind the last one. -/
  behind : Nat
  deriving DecidableEq

/-- The places of a span. -/
def Span.Has (span : Span) (place : Nat) : Prop := span.first ≤ place ∧ place < span.behind

/-- What stands in a span of a text. -/
def Span.of (text : Text) (span : Span) : Text := text.extract span.first span.behind

/-- The span as many places later. -/
def Span.shift (places : Nat) (span : Span) : Span := ⟨places + span.first, places + span.behind⟩

/-- The spans between the gaps of a text: they come in order, none of them is empty, and there is a
gap, at least, between any two. -/
structure Divides (text : Text) (spans : List Span) : Prop where
  nonempty : ∀ span ∈ spans, span.first < span.behind
  inside : ∀ span ∈ spans, span.behind ≤ text.length
  apart : spans.Pairwise fun span span' => span.behind < span'.first
  gap_iff : ∀ place < text.length, Gap text place ↔ ∀ span ∈ spans, ¬ span.Has place

/-- Spans that are shifted behind a text cover what they covered before. -/
lemma map_of_shift (front rest : Text) (spans : List Span) :
    (spans.map (Span.shift front.length)).map (Span.of (front ++ rest)) =
      spans.map (Span.of rest) := by
  rw [List.map_map]
  refine List.map_congr_left fun span _ => ?_
  simp only [Function.comp_apply, Span.of, Span.shift, List.extract_eq_take_drop,
    List.drop_length_add_append, Nat.add_sub_add_left]

/-- A shifted span has the shifted places. -/
lemma has_shift_iff (places : Nat) (span : Span) (place : Nat) :
    (span.shift places).Has (places + place) ↔ span.Has place := by
  simp only [Span.Has, Span.shift, Nat.add_le_add_iff_left, Nat.add_lt_add_iff_left]

/-- A shifted span has no place in front of its shift. -/
lemma not_has_shift {places : Nat} (h : place < places) (span : Span) :
    ¬ (span.shift places).Has place := by
  simp only [Span.Has, Span.shift]
  omega

/-- Gaps in front of a text only shift its spans. -/
lemma Divides.shift {spans : List Span} (h : Divides rest spans)
    (hend : ¬ Escaped front front.length) (hgaps : ∀ place < front.length, Gap front place) :
    Divides (front ++ rest) (spans.map (.shift front.length)) where
  nonempty := by
    simpa only [List.forall_mem_map, Span.shift, Nat.add_lt_add_iff_left] using h.nonempty
  inside := by
    simpa only [List.forall_mem_map, Span.shift, List.length_append, Nat.add_le_add_iff_left]
      using h.inside
  apart := by
    simpa only [List.pairwise_map, Span.shift, Nat.add_lt_add_iff_left] using h.apart
  gap_iff place hplace := by
    rw [List.forall_mem_map]
    rcases Nat.lt_or_ge place front.length with hlt | hge
    · rw [gap_append_left hlt]
      exact iff_of_true (hgaps place hlt) fun span _ => not_has_shift hlt span
    · obtain ⟨place, rfl⟩ := Nat.exists_eq_add_of_le hge
      rw [List.length_append, Nat.add_lt_add_iff_left] at hplace
      simp only [gap_append_right hend, has_shift_iff, h.gap_iff place hplace]

/-- There is no span in an empty text. -/
lemma Divides.eq_nil {spans : List Span} (h : Divides [] spans) : spans = [] := by
  refine List.eq_nil_iff_forall_not_mem.2 fun span hspan => ?_
  have hfirst := h.nonempty span hspan
  have hbehind := h.inside span hspan
  rw [List.length_nil] at hbehind
  omega

/-- A gap in front of a text is in front of its spans. -/
lemma Divides.first_pos {spans : List Span} (h : Divides rest spans) (hgap : Gap rest 0)
    {span : Span}
    (hspan : span ∈ spans) : 0 < span.first := by
  have hlength : 0 < rest.length := by
    obtain ⟨c, hc, -⟩ := hgap
    exact (List.getElem?_eq_some_iff.1 hc).1
  have hnot := (h.gap_iff 0 hlength).1 hgap span hspan
  have hlt := h.nonempty span hspan
  rw [Span.Has] at hnot
  omega

/-- A token in front of a text that has none, or begins with a gap, is a span of its own. -/
lemma Divides.word {spans : List Span} (h : Divides rest spans) (htoken : IsWord token)
    (hrest : rest = [] ∨ ¬ Escaped token token.length ∧ Gap rest 0) :
    Divides (token ++ rest) (⟨0, token.length⟩ :: spans.map (.shift token.length)) := by
  have hhas : ∀ place, (⟨0, token.length⟩ : Span).Has place ↔ place < token.length := fun place =>
    and_iff_right (Nat.zero_le place)
  rcases hrest with rfl | ⟨hend, hgap⟩
  · obtain rfl := h.eq_nil
    rw [List.append_nil]
    refine ⟨?_, by simp, by simp, fun place hplace => ?_⟩
    · simpa using List.length_pos_iff.2 htoken.ne_nil
    · exact iff_of_false (htoken.not_gap place) (by simpa [hhas] using hplace)
  · refine ⟨?_, ?_, ?_, fun place hplace => ?_⟩
    · simpa [Span.shift, List.length_pos_iff.2 htoken.ne_nil] using h.nonempty
    · simpa [Span.shift] using h.inside
    · rw [List.pairwise_cons, List.pairwise_map]
      refine ⟨?_, ?_⟩
      · simpa [Span.shift] using fun span hspan => h.first_pos hgap hspan
      · simpa only [Span.shift, Nat.add_lt_add_iff_left] using h.apart
    · rw [List.forall_mem_cons, hhas, List.forall_mem_map]
      rcases Nat.lt_or_ge place token.length with hlt | hge
      · rw [gap_append_left hlt]
        exact iff_of_false (htoken.not_gap place) fun hnot => hnot.1 hlt
      · obtain ⟨place, rfl⟩ := Nat.exists_eq_add_of_le hge
        rw [List.length_append, Nat.add_lt_add_iff_left] at hplace
        simp only [gap_append_right hend, has_shift_iff, h.gap_iff place hplace,
          Nat.not_lt.2 hge, not_false_eq_true, true_and]

/-! ## Tokens -/

/-- What stands behind the first token begins with white space. -/
lemma takeToken_behind (text : Text) :
    (takeToken text).2 = [] ∨ ∃ c rest, (takeToken text).2 = c :: rest ∧ isWhite c = true := by
  fun_induction takeToken text with
  | case1 => exact Or.inl rfl
  | case2 => exact Or.inl rfl
  | case3 c rest token behind htoken ih => rwa [htoken] at ih
  | case4 c rest hlast hmore hwhite => exact Or.inr ⟨c, rest, rfl, hwhite⟩
  | case5 c rest hlast hmore hwhite token behind htoken ih => rwa [htoken] at ih

/-- White space at the front of a text is not escaped. -/
lemma gap_zero {c : Char} (h : isWhite c = true) (rest : Text) : Gap (c :: rest) 0 :=
  ⟨c, rfl, h, id⟩

/-- **The tokens of a text stand between its gaps.** -/
lemma exists_divides (text : Text) :
    ∃ spans, Divides text spans ∧ tokens text = spans.map (Span.of text) := by
  fun_induction tokens text with
  | case1 => exact ⟨[], ⟨by simp, by simp, List.Pairwise.nil, by simp⟩, rfl⟩
  | case2 c rest hwhite ih =>
      obtain ⟨spans, hspans, htokens⟩ := ih
      have hescape : c ≠ '\\' := by
        rintro rfl
        revert hwhite
        decide
      refine ⟨_, hspans.shift (not_escaped_singleton hescape) fun place hplace => ?_, ?_⟩
      · obtain rfl : place = 0 := Nat.lt_one_iff.1 hplace
        exact gap_zero hwhite []
      · rw [htokens]
        exact (map_of_shift [c] rest spans).symm
  | case3 c rest hwhite _ ih =>
      have hword : IsWord (takeToken (c :: rest)).1 :=
        isWord_of_mem_tokens (tokens_cons rest (Bool.eq_false_iff.2 hwhite) ▸ List.mem_cons_self)
      have hwhole := whole_takeToken (c :: rest)
      have hgap := takeToken_behind (c :: rest)
      have happend := takeToken_append (c :: rest)
      generalize (takeToken (c :: rest)).1 = token at *
      generalize (takeToken (c :: rest)).2 = behind at *
      obtain ⟨spans, hspans, htokens⟩ := ih
      have hbehind : behind = [] ∨ ¬ Escaped token token.length ∧ Gap behind 0 := by
        rcases hgap with hnil | ⟨d, more, rfl, hd⟩
        · exact Or.inl hnil
        · rcases hwhole with hwhole | ⟨hnil, -⟩
          · exact Or.inr ⟨hwhole.not_escaped, gap_zero hd more⟩
          · cases hnil
      rw [← happend]
      refine ⟨_, hspans.word hword hbehind, ?_⟩
      rw [List.map_cons, map_of_shift, htokens]
      simp [Span.of]

/-- **Tokens and gaps are all of a text.**  There are spans, in order and none of them empty, that
leave out just the places with white space that is not escaped; and the tokens are what stands in
them.  So no token is empty or has a gap of its own.

The tokens are read back when they are written one behind the other with white space between them,
any and as much as there may be, also when the last one ends in a backslash that escapes nothing. -/
theorem tokens_between_gaps (text : Text) :
    (∃ spans, Divides text spans ∧ tokens text = spans.map (Span.of text)) ∧
    (∀ token ∈ tokens text, token ≠ [] ∧ ∀ place, ¬ Gap token place) ∧
    ∀ rows : List (Text × Text), rows.map Prod.snd = tokens text →
      (∀ row ∈ rows, ∀ c ∈ row.1, isWhite c = true) → (∀ row ∈ rows.tail, row.1 ≠ []) →
        tokens (rows.flatMap fun row => row.1 ++ row.2) = tokens text := by
  refine ⟨exists_divides text, fun token htoken => ?_, fun rows hrows hgaps hapart => ?_⟩
  · have hword := isWord_of_mem_tokens htoken
    exact ⟨hword.ne_nil, hword.not_gap⟩
  · rw [← hrows]
    refine tokens_rows hgaps hapart (fun row hrow => ?_) fun word hword => ?_
    · exact isWord_of_mem_tokens (hrows ▸ List.mem_map_of_mem hrow)
    · exact whole_of_mem_dropLast_tokens (hrows ▸ hword)

/-- The first token holds an escaped space and an escaped backslash, and the second one is a
backslash with nothing behind it. -/
theorem tokens_between_gaps_left_over :
    let text : Text := " a\\ b\\\\  \\".toList
    let rows : List (Text × Text) := [([], "a\\ b\\\\".toList), (['\t', '\u3000'], "\\".toList)]
    tokens text = rows.map Prod.snd ∧ Escaped text 3 ∧ ¬ Gap text 3 ∧ Gap text 7 ∧
      tokens (rows.flatMap fun row => row.1 ++ row.2) = tokens text := by
  intro text rows
  have htokens : tokens text = rows.map Prod.snd := by decide +kernel
  have hgaps : ∀ row ∈ rows, ∀ c ∈ row.1, isWhite c = true := by
    refine List.forall_mem_cons.2 ⟨List.forall_mem_nil _, List.forall_mem_singleton.2 ?_⟩
    exact List.forall_mem_cons.2 ⟨by decide, List.forall_mem_singleton.2 (by decide)⟩
  obtain ⟨-, -, hback⟩ := tokens_between_gaps text
  refine ⟨htokens, ?_, ?_, ?_, hback rows htokens.symm hgaps (by decide)⟩
  · simp [Escaped, text]
  · simp [Gap, Escaped, text]
  · exact ⟨' ', rfl, by decide, by simp [Escaped, text]⟩

end LexicalSelection.Rule
