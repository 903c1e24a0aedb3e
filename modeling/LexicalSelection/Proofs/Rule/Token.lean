import LexicalSelection.Rule.Token
import Mathlib.Data.List.Basic

/-!
# What tokens are

A token holds no white space that is not escaped, and only the last token of a line may end in a
backslash that escapes nothing.

* `Whole` — a text in which each backslash has its character behind it.
* `IsWord` — a text that is a token when it is the last of its line.
* `isWord_of_mem_tokens`, `whole_of_mem_dropLast_tokens` — such are the tokens of a line.
* **`tokens_rows`** — words with white space in front of each are read back.
-/

namespace LexicalSelection.Rule

open Text (isWhite)

variable {text token : Text}

/-- Each backslash has the character behind it that it escapes, and other white space is not
there. -/
inductive Whole : Text → Prop
  | nil : Whole []
  | escaped (c : Char) {rest : Text} (h : Whole rest) : Whole ('\\' :: c :: rest)
  | plain {c : Char} {rest : Text} (hescape : c ≠ '\\') (hwhite : isWhite c = false)
      (h : Whole rest) : Whole (c :: rest)

/-- The text is a token, and a backslash may be left over at its end. -/
structure IsWord (text : Text) : Prop where
  ne_nil : text ≠ []
  whole : Whole text ∨ ∃ front, Whole front ∧ text = front ++ ['\\']

/-! ## The first token -/

lemma takeToken_plain {c : Char} (rest : Text) (hescape : c ≠ '\\') (hwhite : isWhite c = false) :
    takeToken (c :: rest) = (c :: (takeToken rest).1, (takeToken rest).2) := by
  rw [takeToken]
  · rw [if_neg (Bool.eq_false_iff.1 hwhite)]
  · exact fun heq => absurd heq hescape
  · exact fun _ _ heq => absurd heq hescape

lemma takeToken_white {c : Char} (rest : Text) (hwhite : isWhite c = true) :
    takeToken (c :: rest) = ([], c :: rest) := by
  have hescape : c ≠ '\\' := by
    rintro rfl
    revert hwhite
    decide
  rw [takeToken]
  · rw [if_pos hwhite]
  · exact fun heq => absurd heq hescape
  · exact fun _ _ heq => absurd heq hescape

/-- A whole text belongs to the token at the front. -/
lemma takeToken_append_of_whole (h : Whole text) (rest : Text) :
    takeToken (text ++ rest) = (text ++ (takeToken rest).1, (takeToken rest).2) := by
  induction h with
  | nil => rfl
  | escaped c h ih =>
      rw [List.cons_append, List.cons_append, takeToken, ih]
      rfl
  | plain hescape hwhite h ih =>
      rw [List.cons_append, takeToken_plain _ hescape hwhite, ih]
      rfl

/-- What is left open at the end of the first token is the end of the text. -/
lemma whole_takeToken (text : Text) : Whole (takeToken text).1 ∨
    (takeToken text).2 = [] ∧ ∃ front, Whole front ∧ (takeToken text).1 = front ++ ['\\'] := by
  fun_induction takeToken text with
  | case1 => exact Or.inl .nil
  | case2 => exact Or.inr ⟨rfl, [], .nil, rfl⟩
  | case3 c rest token behind htoken ih =>
      rw [htoken] at ih
      rcases ih with ih | ⟨hbehind, front, hfront, hopen⟩
      · exact Or.inl (.escaped c ih)
      · exact Or.inr
          ⟨hbehind, '\\' :: c :: front, .escaped c hfront, congrArg ('\\' :: c :: ·) hopen⟩
  | case4 => exact Or.inl .nil
  | case5 c rest hlast hmore hwhite token behind htoken ih =>
      rw [htoken] at ih
      have hescape : c ≠ '\\' := by
        intro hc
        cases rest with
        | nil => exact hlast hc rfl
        | cons d rest => exact hmore d rest hc rfl
      have hwhite : isWhite c = false := Bool.eq_false_iff.2 hwhite
      rcases ih with ih | ⟨hbehind, front, hfront, hopen⟩
      · exact Or.inl (.plain hescape hwhite ih)
      · exact Or.inr ⟨hbehind, c :: front, .plain hescape hwhite hfront, congrArg (c :: ·) hopen⟩

/-! ## All tokens -/

lemma tokens_white {c : Char} (rest : Text) (h : isWhite c = true) :
    tokens (c :: rest) = tokens rest := by
  rw [tokens, dif_pos h]

lemma tokens_cons {c : Char} (rest : Text) (h : isWhite c = false) :
    tokens (c :: rest) = (takeToken (c :: rest)).1 :: tokens (takeToken (c :: rest)).2 := by
  rw [tokens, dif_neg (Bool.eq_false_iff.1 h)]

/-- Each token of a text is a word. -/
lemma isWord_of_mem_tokens (h : token ∈ tokens text) : IsWord token := by
  fun_induction tokens text with
  | case1 => cases h
  | case2 c rest hwhite ih => exact ih h
  | case3 c rest hwhite _ ih =>
      rcases List.mem_cons.1 h with rfl | h
      · refine ⟨takeToken_ne_nil rest (Bool.eq_false_iff.2 hwhite), ?_⟩
        exact (whole_takeToken (c :: rest)).imp id And.right
      · exact ih h

/-- Each token with another one behind it is whole. -/
lemma whole_of_mem_dropLast_tokens (h : token ∈ (tokens text).dropLast) : Whole token := by
  fun_induction tokens text with
  | case1 => cases h
  | case2 c rest hwhite ih => exact ih h
  | case3 c rest hwhite _ ih =>
      rcases whole_takeToken (c :: rest) with hwhole | ⟨hbehind, -⟩
      · cases hmore : tokens (takeToken (c :: rest)).2 with
        | nil =>
            rw [hmore] at h
            cases h
        | cons next more =>
            rw [hmore, List.dropLast_cons_cons] at h
            rw [hmore] at ih
            rcases List.mem_cons.1 h with rfl | h
            · exact hwhole
            · exact ih h
      · rw [hbehind, tokens] at h
        cases h

/-- The characters of a token are characters of the text. -/
lemma mem_of_mem_tokens {c : Char} (h : token ∈ tokens text) (hc : c ∈ token) : c ∈ text := by
  fun_induction tokens text with
  | case1 => cases h
  | case2 d rest hwhite ih => exact List.mem_cons_of_mem d (ih h)
  | case3 d rest hwhite _ ih =>
      rw [← takeToken_append (d :: rest), List.mem_append]
      rcases List.mem_cons.1 h with rfl | h
      · exact Or.inl hc
      · exact Or.inr (ih h)

/-! ## Words written one behind the other -/

lemma Whole.head {c : Char} {rest : Text} (h : Whole (c :: rest)) : isWhite c = false := by
  cases h with
  | escaped => decide
  | plain _ hwhite _ => exact hwhite

lemma tokens_append_white (h : Whole text) (hne : text ≠ []) {c : Char} (hc : isWhite c = true)
    (rest : Text) : tokens (text ++ c :: rest) = text :: tokens rest := by
  have htake := takeToken_append_of_whole h (c :: rest)
  rw [takeToken_white rest hc, List.append_nil] at htake
  cases text with
  | nil => exact absurd rfl hne
  | cons d text =>
      rw [List.cons_append] at htake ⊢
      rw [tokens_cons _ h.head, htake, tokens_white rest hc]

/-- White space in front of a text has no token. -/
lemma tokens_gap_append {gap : Text} (h : ∀ c ∈ gap, isWhite c = true) (rest : Text) :
    tokens (gap ++ rest) = tokens rest := by
  induction gap with
  | nil => rfl
  | cons c gap ih =>
      obtain ⟨hc, hgap⟩ := List.forall_mem_cons.1 h
      rw [List.cons_append, tokens_white _ hc, ih hgap]

lemma tokens_of_isWord (h : IsWord text) : tokens text = [text] := by
  have htake : takeToken text = (text, []) := by
    rcases h.whole with hwhole | ⟨front, hfront, rfl⟩
    · have htake := takeToken_append_of_whole hwhole []
      rw [takeToken, List.append_nil] at htake
      exact htake
    · exact takeToken_append_of_whole hfront ['\\']
  have hhead : ∃ c rest, text = c :: rest ∧ isWhite c = false := by
    rcases h.whole with hwhole | ⟨front, hfront, rfl⟩
    · obtain ⟨c, rest, rfl⟩ := List.exists_cons_of_ne_nil h.ne_nil
      exact ⟨c, rest, rfl, hwhole.head⟩
    · cases front with
      | nil => exact ⟨'\\', [], rfl, by decide⟩
      | cons c front => exact ⟨c, front ++ ['\\'], rfl, hfront.head⟩
  obtain ⟨c, rest, rfl, hwhite⟩ := hhead
  rw [tokens_cons rest hwhite, htake, tokens]

/-- **Words are read back**, whatever white space stands in front of each.  Only the last word may
leave a backslash over. -/
lemma tokens_rows {rows : List (Text × Text)} (hgaps : ∀ row ∈ rows, ∀ c ∈ row.1, isWhite c = true)
    (hapart : ∀ row ∈ rows.tail, row.1 ≠ []) (hwords : ∀ row ∈ rows, IsWord row.2)
    (hwhole : ∀ word ∈ (rows.map Prod.snd).dropLast, Whole word) :
    tokens (rows.flatMap fun row => row.1 ++ row.2) = rows.map Prod.snd := by
  induction rows with
  | nil => rw [List.flatMap_nil, tokens, List.map_nil]
  | cons row rows ih =>
      obtain ⟨hgap, hgaps⟩ := List.forall_mem_cons.1 hgaps
      obtain ⟨hword, hwords⟩ := List.forall_mem_cons.1 hwords
      rw [List.flatMap_cons, List.append_assoc, tokens_gap_append hgap, List.map_cons]
      cases rows with
      | nil => rw [List.flatMap_nil, List.append_nil, tokens_of_isWord hword, List.map_nil]
      | cons next rows =>
          -- the white space in front of the next word ends this one
          rw [List.map_cons, List.map_cons, List.dropLast_cons_cons] at hwhole
          obtain ⟨hrow, hwhole⟩ := List.forall_mem_cons.1 hwhole
          obtain ⟨c, gap, hnext⟩ := List.exists_cons_of_ne_nil (hapart next List.mem_cons_self)
          have hc : isWhite c = true := hgaps next List.mem_cons_self c (hnext ▸ List.mem_cons_self)
          have hbehind := ih hgaps (fun row hrow => hapart row (List.mem_cons_of_mem _ hrow)) hwords
            hwhole
          rw [List.flatMap_cons, hnext, List.cons_append, List.cons_append, tokens_white _ hc]
            at hbehind
          rw [List.flatMap_cons, hnext, List.cons_append, List.cons_append,
            tokens_append_white hrow hword.ne_nil hc, hbehind]

/-- Words with a space in front of each are read back. -/
lemma tokens_spaced {words : List Text} {last : Text}
    (hwords : ∀ word ∈ words, Whole word ∧ word ≠ []) (hlast : IsWord last) :
    tokens ((words ++ [last]).flatMap (' ' :: ·)) = words ++ [last] := by
  have hmem : ∀ row ∈ (words ++ [last]).map ([' '], ·),
      row.1 = [' '] ∧ row.2 ∈ words ++ [last] := by
    intro row hrow
    obtain ⟨word, hword, rfl⟩ := List.mem_map.1 hrow
    exact ⟨rfl, hword⟩
  have hall : ∀ word ∈ words ++ [last], IsWord word := List.forall_mem_append.2
    ⟨fun word hword => ⟨(hwords word hword).2, Or.inl (hwords word hword).1⟩, by simpa using hlast⟩
  have hsnd : ((words ++ [last]).map ([' '], ·)).map Prod.snd = words ++ [last] := by
    rw [List.map_map]
    exact List.map_id _
  have htokens := @tokens_rows ((words ++ [last]).map ([' '], ·))
    (fun row hrow => by rw [(hmem row hrow).1]; exact List.forall_mem_singleton.2 (by decide))
    (fun row hrow => by rw [(hmem row (List.mem_of_mem_tail hrow)).1]; exact List.cons_ne_nil _ _)
    (fun row hrow => hall row.2 (hmem row hrow).2)
    (by rw [hsnd, List.dropLast_concat]; exact fun word hword => (hwords word hword).1)
  rwa [hsnd, List.flatMap_map] at htokens

end LexicalSelection.Rule
