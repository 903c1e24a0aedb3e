import LexicalSelection.Embedding.RuleFragment
import LexicalSelection.Proofs.LexicalUnit.Rereading
import LexicalSelection.Proofs.Pattern.Chain
import LexicalSelection.Proofs.Rule.Token
import LexicalSelection.Proofs.Text.Lines

/-!
# What a form matches as a pattern

A form is written as a pattern with an escape before each character that would be a wildcard or end
the word.  Outside of tags the pattern then describes the characters of the form one by one.  But a
pattern knows no escapes inside of its tags, so a tag comes through only if it needs none.

* `Paired` — a text in which each escape has its character behind it.
* `Piece.Closed` — a piece that says by itself where it ends, as do those of closed units.
* `whole_literalPattern` — the pattern is one word of a rule line.
* `PlainTag` — a tag that is spelled the same in a pattern.
* **`matches_literalPattern`** — with such tags the pattern matches just the readings with the same
  characters and tags.
* **`not_matches_literalPattern`** — with any other tag it does not match its own reading.
-/

namespace LexicalSelection

/-- Each escape in the text has the character behind it that it escapes. -/
inductive Paired : Text → Prop
  | nil : Paired []
  | escaped (c : Char) {rest : Text} (h : Paired rest) : Paired (Input.escape :: c :: rest)
  | plain {c : Char} {rest : Text} (hescape : c ≠ Input.escape) (h : Paired rest) :
      Paired (c :: rest)

lemma Paired.append {front rest : Text} (hfront : Paired front) (hrest : Paired rest) :
    Paired (front ++ rest) := by
  induction hfront with
  | nil => exact hrest
  | escaped c _ ih => exact .escaped c ih
  | plain hescape _ ih => exact .plain hescape ih

/-! ## Pieces of closed units -/

namespace Piece

/-- The piece says by itself where it ends. -/
def Closed : Piece → Prop
  | plain c => c ≠ Input.escape ∧ c ≠ '<' ∧ c ≠ Input.readingSeparator
  | escaped _ => True
  | danglingEscape => False
  | tag text _ => ∃ body, Paired body ∧ text = '<' :: body ++ ['>']

lemma Closed.exists_token {piece : Piece} (h : piece.Closed) :
    ∃ token, piece.token? = some token := by
  cases piece with
  | danglingEscape => exact h.elim
  | _ => exact ⟨_, rfl⟩

lemma Closed.paired {piece : Piece} (h : piece.Closed) : Paired piece.text := by
  cases piece with
  | plain c => exact .plain h.1 .nil
  | escaped c => exact .escaped c .nil
  | danglingEscape => exact h.elim
  | tag text id =>
      obtain ⟨body, hbody, rfl⟩ := h
      exact .plain (by decide) (hbody.append (.plain (by decide) .nil))

end Piece

lemma paired_flatMap_text {pieces : List Piece} (h : ∀ piece ∈ pieces, piece.Closed) :
    Paired (pieces.flatMap Piece.text) := by
  induction pieces with
  | nil => exact .nil
  | cons piece pieces ih =>
      obtain ⟨hpiece, hpieces⟩ := List.forall_mem_cons.1 h
      exact hpiece.paired.append (ih hpieces)

/-- A stretch that does not end with the input ends with the character that closes it. -/
lemma Input.paired_of_copyThrough {input rest : Input} {close : Char} {text : Text}
    (h : copyThrough close input = .ok text rest) (hne : rest ≠ []) :
    ∃ body, Paired body ∧ text = body ++ [close] := by
  fun_induction copyThrough close input generalizing text with
  | case1 => cases h; exact absurd rfl hne
  | case2 => cases h
  | case3 => cases h; exact absurd rfl hne
  | case4 => cases h
  | case5 d input ih =>
      obtain ⟨text, htext, rfl⟩ := map_eq_ok.1 h
      obtain ⟨body, hbody, rfl⟩ := ih htext
      exact ⟨_, .escaped d hbody, rfl⟩
  | case6 => cases h; exact ⟨[], .nil, rfl⟩
  | case7 c input hescape hclose ih =>
      obtain ⟨text, htext, rfl⟩ := map_eq_ok.1 h
      obtain ⟨body, hbody, rfl⟩ := ih htext
      exact ⟨_, .plain hescape hbody, rfl⟩

/-- Pieces that do not end with the input are closed. -/
lemma Reading.closed_of_readPieces {tags : TagNumbers} {input rest : Input} {pieces : List Piece}
    (h : readPieces tags input = .ok pieces rest) (hne : rest ≠ []) :
    ∀ piece ∈ pieces, piece.Closed := by
  fun_induction readPieces tags input generalizing pieces with
  | case1 => cases h; exact absurd rfl hne
  | case2 => cases h
  | case3 => cases h; simp
  | case4 => cases h; exact absurd rfl hne
  | case5 => cases h
  | case6 d input _ ih =>
      obtain ⟨pieces, hpieces, rfl⟩ := Input.map_eq_ok.1 h
      exact List.forall_mem_cons.2 ⟨trivial, ih hpieces⟩
  | case7 => cases h
  | case8 input tag behind htag _ _ _ ih =>
      obtain ⟨pieces, hpieces, rfl⟩ := Input.map_eq_ok.1 h
      obtain ⟨body, hbody, rfl⟩ := Input.map_eq_ok.1 htag
      have hbehind : behind ≠ [] := by
        rintro rfl
        rw [readPieces] at hpieces
        cases hpieces
        exact hne rfl
      obtain ⟨inner, hinner, rfl⟩ := Input.paired_of_copyThrough hbody hbehind
      exact List.forall_mem_cons.2 ⟨⟨inner, hinner, rfl⟩, ih hpieces⟩
  | case9 c input hends hescape hopen ih =>
      obtain ⟨pieces, hpieces, rfl⟩ := Input.map_eq_ok.1 h
      have hseparator : c ≠ Input.readingSeparator := by
        rintro rfl
        exact hends (by decide)
      exact List.forall_mem_cons.2 ⟨⟨hescape, hopen, hseparator⟩, ih hpieces⟩

namespace Embedding

variable {text front rest : Text} {c : Char} {pieces : List Piece} {tokens : List Token}

/-! ## The text of the pattern -/

/-- A character of the form, with an escape when it needs one. -/
def literalChar (c : Char) : Text :=
  if c = '*' ∨ Text.isWhite c then [Input.escape, c] else [c]

lemma literalPattern_plain (hescape : c ≠ Input.escape) (rest : Text) :
    literalPattern (c :: rest) = literalChar c ++ literalPattern rest := by
  rw [literalPattern, literalChar]
  · split <;> rfl
  · exact fun heq => absurd heq hescape
  · exact fun _ _ heq => absurd heq hescape

/-- Behind a text without an open escape the pattern goes on as if nothing were in front. -/
lemma literalPattern_append (h : Paired front) (rest : Text) :
    literalPattern (front ++ rest) = literalPattern front ++ literalPattern rest := by
  induction h with
  | nil => rfl
  | escaped c _ ih => exact congrArg (Input.escape :: c :: ·) ih
  | plain hescape _ ih =>
      rw [List.cons_append, literalPattern_plain hescape, literalPattern_plain hescape, ih,
        List.append_assoc]

/-- **The pattern is one word of a rule.** -/
lemma whole_literalPattern (h : Paired text) : Rule.Whole (literalPattern text) := by
  induction h with
  | nil => exact .nil
  | escaped c _ ih => exact .escaped c ih
  | @plain c rest hescape _ ih =>
      rw [literalPattern_plain hescape, literalChar]
      split
      · exact .escaped c ih
      · rename_i hneeds
        exact .plain hescape (Bool.eq_false_iff.2 fun hwhite => hneeds (Or.inr hwhite)) ih

/-- Nothing but escapes is added. -/
lemma mem_literalPattern (hc : c ≠ Input.escape) : c ∈ literalPattern text ↔ c ∈ text := by
  fun_induction literalPattern text with
  | case1 => simp
  | case2 => simp
  | case3 d rest ih => simp [ih]
  | case4 d rest _ _ hneeds ih => simp [ih, show c ≠ '\\' from hc]
  | case5 d rest _ _ hneeds ih => simp [ih]

/-- The last character stays the last one. -/
lemma getLast?_literalPattern (text : Text) : (literalPattern text).getLast? = text.getLast? := by
  fun_induction literalPattern text with
  | case1 => rfl
  | case2 => rfl
  | case3 d rest ih => simp [List.getLast?_cons, ih]
  | case4 d rest _ _ hneeds ih => simp [List.getLast?_cons, ih]
  | case5 d rest _ _ hneeds ih => simp [List.getLast?_cons, ih]

lemma oneLine_literalPattern (h : Text.OneLine text) : Text.OneLine (literalPattern text) where
  newline := by
    rw [mem_literalPattern (by decide)]
    exact h.newline
  return_ne := by
    rw [getLast?_literalPattern]
    exact h.return_ne

/-- No pattern of a form begins with a bare wildcard. -/
lemma head?_literalPattern (text : Text) : (literalPattern text).head? ≠ some '*' := by
  unfold literalPattern
  split
  · simp
  · simp
  · simp
  · split
    · simp
    · rename_i hneeds
      intro hstar
      exact hneeds (Or.inl (Option.some.inj hstar))

/-! ## Tags that need no escape -/

/-- The tag is spelled the same in a pattern: between its brackets nothing needs an escape, and
there is no closing bracket, escaped or not. -/
def PlainTag (tag : Text) : Prop :=
  ∃ body, tag = '<' :: body ++ ['>'] ∧ '>' ∉ body ∧ literalPattern body = body

/-- The pattern for a tag in front of other pieces. -/
lemma literalPattern_tag {body : Text} (hbody : Paired body) (rest : Text) :
    literalPattern ('<' :: body ++ ['>'] ++ rest)
      = '<' :: literalPattern body ++ '>' :: literalPattern rest := by
  rw [List.append_assoc, List.cons_append, literalPattern_plain (by decide),
    literalPattern_append hbody, List.singleton_append, literalPattern_plain (by decide)]
  rfl

/-- The first tag in the pattern ends with the first closing bracket. -/
lemma exists_splitTag (front rest : Text) : ∃ body behind,
    front ++ '>' :: rest = body ++ '>' :: behind ∧ '>' ∉ body ∧ ('>' ∉ front → body = front) := by
  cases hsplit : Pattern.splitTag? (front ++ '>' :: rest) with
  | none => exact absurd (by simp) (Pattern.splitTag?_eq_none.1 hsplit)
  | some parts =>
      obtain ⟨body, behind⟩ := parts
      obtain ⟨heq, hnone⟩ := Pattern.splitTag?_eq_some.1 hsplit
      refine ⟨body, behind, heq, hnone, fun hfront => ?_⟩
      have hwhole : Pattern.splitTag? (front ++ '>' :: rest) = some (front, rest) :=
        Pattern.splitTag?_eq_some.2 ⟨rfl, hfront⟩
      exact (Prod.mk.inj (Option.some.inj (hsplit.symm.trans hwhole))).1

end Embedding

/-! ## Tokens as atoms -/

/-- The atom that stands for just this token. -/
def Token.atom : Token → Atom
  | char c => .char c
  | tag text => .tag text

lemma Token.names_atom {token token' : Token} : token.atom.Names token' ↔ token = token' := by
  cases token <;> cases token' <;> simp [Token.atom, Atom.Names]

/-- The first token must be the one that the first atom stands for. -/
lemma Token.fits_atom_cons {token : Token} {atoms : List Atom} {tokens : List Token} :
    Pattern.Fits [] (token.atom :: atoms) tokens ↔
      ∃ rest, tokens = token :: rest ∧ Pattern.Fits [] atoms rest := by
  have hliteral : token.atom.isWildcard = false :=
    Pattern.not_isWildcard_of_names (names_atom.2 rfl)
  cases tokens with
  | nil => simp [Pattern.Fits, hliteral]
  | cons token' tokens =>
      rw [fits_literal_cons hliteral, names_atom]
      constructor
      · rintro (⟨⟨_, hnone, -⟩, -⟩ | ⟨rfl, h⟩)
        · cases hnone
        · exact ⟨tokens, rfl, h⟩
      · rintro ⟨rest, heq, h⟩
        obtain ⟨rfl, rfl⟩ := List.cons.inj heq
        exact Or.inr ⟨rfl, h⟩

namespace Embedding

open Pattern (atomsOf Fits)

variable {pieces : List Piece} {piece : Piece} {tokens : List Token}

lemma atomsOf_literalChar {c : Char} (hescape : c ≠ Input.escape) (hopen : c ≠ '<') (rest : Text) :
    atomsOf (literalChar c ++ rest) = .char c :: atomsOf rest := by
  rw [literalChar]
  split
  · exact Pattern.atomsOf_eq_of_spelling (.escaped c (Pattern.spelling_atomsOf rest))
  · rename_i hneeds
    exact Pattern.atomsOf_plain hescape (fun hstar => hneeds (Or.inl hstar)) hopen

/-- In the pattern a closed piece becomes the atom for its token, unless it is a tag that needs an
escape. -/
lemma atomsOf_piece {token : Token} (h : piece.Closed) (htoken : piece.token? = some token)
    (hplain : ∀ tag, token = .tag tag → PlainTag tag) (rest : Text) :
    atomsOf (literalPattern (piece.text ++ rest)) =
      token.atom :: atomsOf (literalPattern rest) := by
  cases piece with
  | plain c =>
      obtain rfl := Option.some.inj htoken
      rw [Piece.text, List.singleton_append, literalPattern_plain h.1]
      exact atomsOf_literalChar h.1 h.2.1 _
  | escaped c =>
      obtain rfl := Option.some.inj htoken
      exact Pattern.atomsOf_eq_of_spelling (.escaped c (Pattern.spelling_atomsOf _))
  | danglingEscape => exact h.elim
  | tag text id =>
      obtain rfl := Option.some.inj htoken
      obtain ⟨body, hbody, rfl⟩ := h
      obtain ⟨body', heq, hclose, hliteral⟩ := hplain _ rfl
      obtain rfl : body = body' := by simpa using heq
      rw [Piece.text, literalPattern_tag hbody, hliteral, Pattern.atomsOf_tag _ hclose,
        Pattern.tagAtom, if_neg]
      · rfl
      · rintro rfl
        revert hliteral
        decide

/-- A tag that needs an escape becomes the atom for another tag. -/
lemma atomsOf_of_not_plainTag {tag : Text} {id : Option Nat} (h : (Piece.tag tag id).Closed)
    (hplain : ¬PlainTag tag) (rest : Text) : ∃ other atoms, other ≠ tag ∧
      atomsOf (literalPattern (tag ++ rest)) = Token.atom (.tag other) :: atoms := by
  obtain ⟨body, hbody, rfl⟩ := h
  obtain ⟨cut, behind, hsplit, hnone, hcut⟩ := exists_splitTag (literalPattern body)
    (literalPattern rest)
  have hclose : '>' ∈ literalPattern body ↔ '>' ∈ body := mem_literalPattern (by decide)
  have hne : cut ≠ body := by
    rintro rfl
    exact hplain ⟨cut, rfl, hnone, (hcut (mt hclose.1 hnone)).symm⟩
  have hstar : cut ≠ ['*'] := by
    rintro rfl
    have hhead := congrArg List.head? hsplit
    cases hpattern : literalPattern body with
    | nil =>
        rw [hpattern] at hhead
        exact absurd (Option.some.inj hhead) (by decide)
    | cons c more =>
        rw [hpattern] at hhead
        have hfirst := head?_literalPattern body
        rw [hpattern] at hfirst
        exact hfirst hhead
  refine ⟨'<' :: cut ++ ['>'], atomsOf behind, by simpa using hne, ?_⟩
  rw [literalPattern_tag hbody, List.cons_append, hsplit, ← List.cons_append,
    Pattern.atomsOf_tag _ hnone, Pattern.tagAtom, if_neg hstar]
  rfl

/-- A form with plain tags describes just its own characters and tags. -/
lemma fits_literalPattern (h : ∀ piece ∈ pieces, piece.Closed)
    (hplain : ∀ tag, .tag tag ∈ pieces.filterMap Piece.token? → PlainTag tag) :
    Fits [] (atomsOf (literalPattern (pieces.flatMap Piece.text))) tokens ↔
      tokens = pieces.filterMap Piece.token? := by
  induction pieces generalizing tokens with
  | nil => simp [literalPattern, atomsOf, Fits, Pattern.Covered, List.eq_nil_iff_forall_not_mem]
  | cons piece pieces ih =>
      obtain ⟨hpiece, hpieces⟩ := List.forall_mem_cons.1 h
      obtain ⟨token, htoken⟩ := hpiece.exists_token
      rw [List.filterMap_cons_some htoken] at hplain ⊢
      obtain ⟨hfirst, hothers⟩ : (∀ tag, token = .tag tag → PlainTag tag) ∧
          ∀ tag, .tag tag ∈ pieces.filterMap Piece.token? → PlainTag tag :=
        ⟨fun tag heq => hplain tag (heq ▸ List.mem_cons_self),
          fun tag hmem => hplain tag (List.mem_cons_of_mem _ hmem)⟩
      rw [List.flatMap_cons, atomsOf_piece hpiece htoken hfirst, Token.fits_atom_cons]
      simp only [ih hpieces hothers, exists_eq_right]

/-- A form with another tag does not describe its own characters and tags. -/
lemma not_fits_literalPattern {tag : Text} (h : ∀ piece ∈ pieces, piece.Closed)
    (htag : .tag tag ∈ pieces.filterMap Piece.token?) (hplain : ¬PlainTag tag) :
    ¬Fits [] (atomsOf (literalPattern (pieces.flatMap Piece.text)))
      (pieces.filterMap Piece.token?) := by
  induction pieces with
  | nil => cases htag
  | cons piece pieces ih =>
      obtain ⟨hpiece, hpieces⟩ := List.forall_mem_cons.1 h
      obtain ⟨token, htoken⟩ := hpiece.exists_token
      rw [List.filterMap_cons_some htoken] at htag ⊢
      rw [List.flatMap_cons]
      by_cases hfirst : ∀ tag, token = .tag tag → PlainTag tag
      · -- the first token is found, and one behind it is not
        have hothers : .tag tag ∈ pieces.filterMap Piece.token? :=
          (List.mem_cons.1 htag).resolve_left fun heq => hplain (hfirst tag heq.symm)
        rw [atomsOf_piece hpiece htoken hfirst, Token.fits_atom_cons]
        rintro ⟨rest, heq, hfits⟩
        exact ih hpieces hothers ((List.cons.inj heq).2 ▸ hfits)
      · push Not at hfirst
        obtain ⟨other, rfl, hother⟩ := hfirst
        obtain ⟨id, rfl⟩ : ∃ id, piece = .tag other id := by
          cases piece <;> simp_all [Piece.token?]
        obtain ⟨cut, atoms, hne, hatoms⟩ :=
          atomsOf_of_not_plainTag hpiece hother (pieces.flatMap Piece.text)
        rw [Piece.text, hatoms, Token.fits_atom_cons]
        rintro ⟨rest, heq, -⟩
        exact hne (Token.tag.inj (List.cons.inj heq).1).symm

/-! ## The side -/

/-- The characters in front of the first separator are neither escapes nor brackets. -/
lemma not_prefix_cons {front rest : Text} {c : Char}
    (hfront : ∀ c ∈ front, c ≠ Input.escape ∧ c ≠ '<') (hc : c = Input.escape ∨ c = '<') :
    ¬ front ++ [Input.readingSeparator] <+: c :: rest := by
  cases front with
  | nil =>
      rw [List.nil_append, List.cons_prefix_cons]
      rintro ⟨rfl, -⟩
      revert hc
      decide
  | cons d front =>
      rw [List.cons_append, List.cons_prefix_cons]
      rintro ⟨rfl, -⟩
      obtain ⟨hescape, hopen⟩ := hfront d List.mem_cons_self
      exact hc.elim hescape hopen

/-- A form does not begin with the name of a side, since it has no bare separator. -/
lemma separator_not_prefix {front : Text} (h : ∀ piece ∈ pieces, piece.Closed)
    (hfront : ∀ c ∈ front, c ≠ Input.escape ∧ c ≠ '<') :
    ¬ front ++ [Input.readingSeparator] <+: literalPattern (pieces.flatMap Piece.text) := by
  induction pieces generalizing front with
  | nil => simp [literalPattern]
  | cons piece pieces ih =>
      obtain ⟨hpiece, hpieces⟩ := List.forall_mem_cons.1 h
      rw [List.flatMap_cons]
      cases piece with
      | plain c =>
          rw [Piece.text, List.singleton_append, literalPattern_plain hpiece.1, literalChar]
          split
          · exact not_prefix_cons hfront (Or.inl rfl)
          · cases front with
            | nil =>
                rw [List.nil_append, List.singleton_append, List.cons_prefix_cons]
                exact fun hprefix => hpiece.2.2 hprefix.1.symm
            | cons d front =>
                rw [List.cons_append, List.singleton_append, List.cons_prefix_cons]
                exact fun hprefix => ih hpieces (List.forall_mem_cons.1 hfront).2 hprefix.2
      | escaped c => exact not_prefix_cons hfront (Or.inl rfl)
      | danglingEscape => exact hpiece.elim
      | tag text id =>
          obtain ⟨body, hbody, rfl⟩ := hpiece
          rw [Piece.text, literalPattern_tag hbody, List.cons_append]
          exact not_prefix_cons hfront (Or.inr rfl)

/-- The pattern for a form says nothing about the side. -/
lemma ofText_literalPattern (h : ∀ piece ∈ pieces, piece.Closed) :
    Pattern.ofText (literalPattern (pieces.flatMap Piece.text))
      = ⟨none, atomsOf (literalPattern (pieces.flatMap Piece.text))⟩ := by
  have hside {first : Char} (hfirst : first ≠ Input.escape ∧ first ≠ '<') :
      ¬ [first, 'l'] ++ [Input.readingSeparator] <+:
        literalPattern (pieces.flatMap Piece.text) :=
    separator_not_prefix h
      (List.forall_mem_cons.2 ⟨hfirst, List.forall_mem_singleton.2 (by decide)⟩)
  exact Pattern.ofText_eq_of_prefixed (.none (hside (by decide)) (hside (by decide)))

/-! ## Readings -/

variable {reading : Reading} {side : Side}

lemma matches_iff_fits (h : ∀ piece ∈ reading.pieces, piece.Closed) :
    Pattern.Matches (literalPattern reading.form) side tokens ↔
      Fits [] (atomsOf (literalPattern reading.form)) tokens := by
  rw [Pattern.matches_iff, Reading.form, ofText_literalPattern h]
  simp

/-- **As a pattern, a form with plain tags matches the readings with the same characters and
tags.** -/
lemma matches_literalPattern (h : ∀ piece ∈ reading.pieces, piece.Closed)
    (hplain : ∀ tag, .tag tag ∈ reading.tokens → PlainTag tag) :
    Pattern.Matches (literalPattern reading.form) side tokens ↔ tokens = reading.tokens := by
  rw [matches_iff_fits h]
  exact fits_literalPattern h hplain

/-- **As a pattern, a form with another tag does not match its own reading.** -/
lemma not_matches_literalPattern {tag : Text} (h : ∀ piece ∈ reading.pieces, piece.Closed)
    (htag : .tag tag ∈ reading.tokens) (hplain : ¬PlainTag tag) :
    ¬Pattern.Matches (literalPattern reading.form) side reading.tokens := by
  rw [matches_iff_fits h]
  exact not_fits_literalPattern h htag hplain

end Embedding

end LexicalSelection
